import PseudoBoolean.Proofs.Family.Drawn

/-!
What a suite consists of.

A recipe names a family and the numbers that a member of it is made from. The recipes of a suite
follow from its parameters alone, and no two of them are alike (`Suite.nodup_recipes`).
-/

namespace PseudoBoolean

/-- Lists that a function tells apart have no member in common. -/
theorem pairwise_disjoint {α β : Type} {f : α → β} {places : List β} {parts : List (List α)}
    (hplaces : places.Nodup) (h : List.Forall₂ (fun b part => ∀ a ∈ part, f a = b) places parts) :
    parts.Pairwise List.Disjoint := by
  induction h with
  | nil => exact .nil
  | cons hpart hparts ih =>
    obtain ⟨hnot, hplaces⟩ := List.nodup_cons.1 hplaces
    refine .cons (fun part hmem a ha ha' => hnot ?_) (ih hplaces)
    obtain ⟨b, hb, hall⟩ := exists_mem_of_forall₂ hparts part hmem
    rwa [← hpart a ha, hall a ha']

open Family (IsUniform IsBinary IsRandom IsScaling integers)

/-- A family and the numbers of a member: of variables and the multiple, the degree, the index, or
of pairs. -/
inductive Recipe where
  | base (relation : Relation) (numbers : Int × Int)
  | negated (relation : Relation) (numbers : Int × Int)
  | saturating
  | propagating
  | binary (relation : Relation) (degree : Nat)
  | small (index : Nat)
  | large (index : Nat)
  | scaling (pairs : Nat)

/-- Whether an instance is made from a recipe. -/
def Recipe.Makes (suite : Suite) (config : FamilyConfig) : Recipe → Instance → Prop
  | base r numbers => IsUniform config suite.label "base" r suite.factor 1 numbers
  | negated r numbers => IsUniform config suite.label "neg" r suite.factor (-1) numbers
  | saturating => fun i => Family.saturating suite.label = .ok i
  | propagating => fun i => Family.propagating suite.label = .ok i
  | binary r degree => IsBinary config suite.label r degree
  | small index => IsRandom suite.label ("random_small" ++ toString index) config.smallMagnitude
      (Var.range config.randomMaxVars)
  | large index => IsRandom suite.label ("random_large" ++ toString index) config.largeMagnitude
      (Var.range config.randomMaxVars)
  | scaling pairs => IsScaling suite.label pairs

/-- The place of a recipe's family in the order of a suite. -/
def Recipe.part : Recipe → Nat
  | base .geq _ => 0
  | base .eq _ => 1
  | negated .geq _ => 2
  | negated .eq _ => 3
  | saturating | propagating => 4
  | binary .geq _ => 5
  | binary .eq _ => 6
  | small _ => 7
  | large _ => 8
  | scaling _ => 9

namespace Suite

def baseRecipes (suite : Suite) (config : FamilyConfig) (r : Relation) : List Recipe :=
  (integers suite.minVars.toNat config.maxVars.toNat ×ˢ integers 0 config.maxVars.toNat).map
    (.base r)

def negatedRecipes (suite : Suite) (config : FamilyConfig) (r : Relation) : List Recipe :=
  (integers suite.minVars.toNat config.maxVars.toNat ×ˢ integers (-1) config.maxVars.toNat).map
    (.negated r)

def pickedRecipes (suite : Suite) : List Recipe :=
  if suite.handPicked then [.saturating, .propagating] else []

def binaryRecipes (config : FamilyConfig) (r : Relation) : List Recipe :=
  (Family.binaryDegrees config.binaryBits.toNat).map (.binary r)

/-- The recipes of a suite, in the order of its instances. -/
def recipes (suite : Suite) (config : FamilyConfig) : List Recipe :=
  (relations.map (suite.baseRecipes config)).flatten ++
    (relations.map (suite.negatedRecipes config)).flatten ++ suite.pickedRecipes ++
    (relations.map (binaryRecipes config)).flatten ++
    (Family.randomNumbers config config.randomSmall).map .small ++
    (Family.randomNumbers config config.randomLarge).map .large ++
    (List.range' 1 suite.scaling.toNat).map .scaling

section Recipes
variable {suite : Suite} {config : FamilyConfig}

/-! ### No two recipes alike -/

/-- The families one by one, each for one relation. -/
def parts (suite : Suite) (config : FamilyConfig) : List (List Recipe) :=
  [suite.baseRecipes config .geq, suite.baseRecipes config .eq, suite.negatedRecipes config .geq,
    suite.negatedRecipes config .eq, suite.pickedRecipes, binaryRecipes config .geq,
    binaryRecipes config .eq, (Family.randomNumbers config config.randomSmall).map .small,
    (Family.randomNumbers config config.randomLarge).map .large,
    (List.range' 1 suite.scaling.toNat).map .scaling]

theorem recipes_eq (suite : Suite) (config : FamilyConfig) :
    suite.recipes config = (suite.parts config).flatten := by
  simp [recipes, parts, relations]

/-- A recipe stands in the part of its family. -/
theorem forall₂_parts (suite : Suite) (config : FamilyConfig) :
    List.Forall₂ (fun place part => ∀ r ∈ part, r.part = place) (List.range 10)
      (suite.parts config) := by
  have hpicked : ∀ r ∈ suite.pickedRecipes, r.part = 4 := by
    rw [pickedRecipes]
    split <;> simp [Recipe.part]
  refine .cons ?_ <| .cons ?_ <| .cons ?_ <| .cons ?_ <| .cons hpicked <| .cons ?_ <| .cons ?_ <|
    .cons ?_ <| .cons ?_ <| .cons ?_ .nil
  all_goals exact List.forall_mem_map.2 fun _ _ => rfl

theorem nodup_of_mem_parts {part : List Recipe} (h : part ∈ suite.parts config) : part.Nodup := by
  have hnumbers : ∀ lo lo' hi : Int, (integers lo hi ×ˢ integers lo' hi).Nodup := fun lo lo' hi =>
    (Family.nodup_integers lo hi).product (Family.nodup_integers lo' hi)
  have hrandom : ∀ count, (Family.randomNumbers config count).Nodup := by
    intro count
    rw [Family.randomNumbers]
    split
    · exact .nil
    · exact List.nodup_range'
  simp only [parts, List.mem_cons, List.not_mem_nil, or_false] at h
  rcases h with rfl | rfl | rfl | rfl | rfl | rfl | rfl | rfl | rfl | rfl
  · exact (hnumbers _ _ _).map fun _ _ h => (Recipe.base.inj h).2
  · exact (hnumbers _ _ _).map fun _ _ h => (Recipe.base.inj h).2
  · exact (hnumbers _ _ _).map fun _ _ h => (Recipe.negated.inj h).2
  · exact (hnumbers _ _ _).map fun _ _ h => (Recipe.negated.inj h).2
  · rw [pickedRecipes]
    split <;> simp
  · exact List.nodup_range.map fun _ _ h => (Recipe.binary.inj h).2
  · exact List.nodup_range.map fun _ _ h => (Recipe.binary.inj h).2
  · exact (hrandom _).map fun _ _ h => Recipe.small.inj h
  · exact (hrandom _).map fun _ _ h => Recipe.large.inj h
  · exact List.Nodup.map (fun _ _ h => Recipe.scaling.inj h) List.nodup_range'

theorem nodup_recipes (suite : Suite) (config : FamilyConfig) : (suite.recipes config).Nodup := by
  rw [recipes_eq, List.nodup_flatten]
  exact ⟨fun _ => nodup_of_mem_parts, pairwise_disjoint List.nodup_range (forall₂_parts _ _)⟩

end Recipes

end Suite

end PseudoBoolean
