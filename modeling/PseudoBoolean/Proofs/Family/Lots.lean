import PseudoBoolean.Proofs.Family.Recipes

/-!
How a suite is put together.

A suite is put into one list lot by lot: a family for one relation, or a single instance. Whatever
the stream holds, each lot is made from its recipes, one instance from each and in their order
(`Suite.IsLot`), and so is the whole suite (`Suite.yields_instances`). So a fact of all instances is
a fact of each recipe.

The sizes of the lots follow from the parameters of the suite. So these decide whether a list has
room for all lots (`Suite.HasRoom`), and a suite without room is refused before it is complete
(`Suite.instances_of_not_hasRoom`).
-/

namespace PseudoBoolean

open Draw (Yields)
open Family (Drawable integers)

namespace Suite

/-- The recipes of each lot. -/
def recipeLots (suite : Suite) (config : FamilyConfig) : List (List Recipe) :=
  relations.map (suite.baseRecipes config) ++ relations.map (suite.negatedRecipes config) ++
    suite.pickedRecipes.map ([·]) ++ relations.map (binaryRecipes config) ++
    [(Family.randomNumbers config config.randomSmall).map .small,
      (Family.randomNumbers config config.randomLarge).map .large] ++
    (List.range' 1 suite.scaling.toNat).map ([.scaling ·])

/-- How many instances each lot holds. -/
def sizes (suite : Suite) (config : FamilyConfig) : List Nat :=
  let counts := config.maxVars.toNat + 1 - suite.minVars.toNat
  let random := fun count => if config.randomMaxVars = 0 then 0 else count
  List.replicate 2 (counts * (config.maxVars.toNat + 1)) ++
    List.replicate 2 (counts * (config.maxVars.toNat + 2)) ++
    (if suite.handPicked then [1, 1] else []) ++
    List.replicate 2 (Family.binaryCount config.binaryBits.toNat) ++
    [random config.randomSmall, random config.randomLarge] ++ List.replicate suite.scaling.toNat 1

/-- Whether a list has room for all lots of a suite, put in one after the other. -/
def HasRoom (suite : Suite) (config : FamilyConfig) : Prop :=
  ∃ room, Room.fillNew (suite.sizes config) = .ok room

instance (suite : Suite) (config : FamilyConfig) : Decidable (suite.HasRoom config) :=
  match h : Room.fillNew (suite.sizes config) with
  | .ok room => isTrue ⟨room, h⟩
  | .error _ => isFalse fun ⟨_, hok⟩ => absurd (h.symm.trans hok) nofun

/-- Whether no product, sum or shift of a suite leaves its word, no range is empty, and a list has
room for each table. -/
structure Fits (suite : Suite) (config : FamilyConfig) : Prop where
  uniform : max config.maxVars.toNat 1 * suite.factor.toInt.natAbs ≤ Word.largest
  table : 2 * ((config.maxVars.toNat + 1) * (config.maxVars.toNat + 2)) ≤ Room.limit
  binary : config.binaryBits.toNat < 63
  small : Drawable config.smallMagnitude (Var.range config.randomMaxVars) ∨ config.randomMaxVars = 0
  large : Drawable config.largeMagnitude (Var.range config.randomMaxVars) ∨ config.randomMaxVars = 0
  scaling : 2 * suite.scaling.toNat < 0x100000000

theorem fits_adder : adder.Fits .standard where
  uniform := by decide
  table := by decide
  binary := by decide
  small := Or.inl ⟨by decide, by decide, by decide⟩
  large := Or.inl ⟨by decide, by decide, by decide⟩
  scaling := by decide

section Lots
variable {suite : Suite} {config : FamilyConfig}

/-! ### Lots and their sizes -/

theorem flatten_recipeLots (suite : Suite) (config : FamilyConfig) :
    (suite.recipeLots config).flatten = suite.recipes config := by
  have hsingle : ∀ {α : Type} (f : α → Recipe) (l : List α), (l.map ([f ·])).flatten = l.map f :=
    fun f l => by rw [← List.flatMap_def, ← List.map_eq_flatMap]
  simp only [recipeLots, recipes, List.flatten_append, hsingle, List.map_id', List.flatten_cons,
    List.flatten_nil, List.append_nil, List.append_assoc]

/-- The sizes of both tables. -/
theorem length_table (suite : Suite) (config : FamilyConfig) (lo : Int) (hlo : lo ≤ 0) :
    (integers suite.minVars.toNat config.maxVars.toNat ×ˢ integers lo config.maxVars.toNat).length =
      (config.maxVars.toNat + 1 - suite.minVars.toNat) * (config.maxVars.toNat + 1 + lo.natAbs) := by
  rw [List.length_product, Family.length_integers, Family.length_integers]
  congr 1 <;> omega

theorem length_baseRecipes (suite : Suite) (config : FamilyConfig) (r : Relation) :
    (suite.baseRecipes config r).length =
      (config.maxVars.toNat + 1 - suite.minVars.toNat) * (config.maxVars.toNat + 1) := by
  rw [baseRecipes, List.length_map]
  exact length_table suite config 0 (Int.le_refl 0)

theorem length_negatedRecipes (suite : Suite) (config : FamilyConfig) (r : Relation) :
    (suite.negatedRecipes config r).length =
      (config.maxVars.toNat + 1 - suite.minVars.toNat) * (config.maxVars.toNat + 2) := by
  rw [negatedRecipes, List.length_map]
  exact length_table suite config (-1) (by decide)

theorem length_binaryRecipes (config : FamilyConfig) (r : Relation) :
    (binaryRecipes config r).length = Family.binaryCount config.binaryBits.toNat := by
  rw [binaryRecipes, List.length_map, Family.binaryDegrees, List.length_range]

/-- The sizes are those of the recipes. -/
theorem map_length_recipeLots (suite : Suite) (config : FamilyConfig) :
    (suite.recipeLots config).map List.length = suite.sizes config := by
  have hpicked : (suite.pickedRecipes.map ([·])).map List.length =
      if suite.handPicked then [1, 1] else [] := by
    rw [pickedRecipes]
    split <;> rfl
  have hscaling : ((List.range' 1 suite.scaling.toNat).map ([Recipe.scaling ·])).map List.length =
      List.replicate suite.scaling.toNat 1 := by
    rw [List.map_map]
    exact (List.map_const' ..).trans (by rw [List.length_range'])
  simp only [recipeLots, sizes, relations, List.map_append, List.map_cons, List.map_nil,
    List.length_map, length_baseRecipes, length_negatedRecipes, length_binaryRecipes, hpicked,
    hscaling, Family.length_randomNumbers]
  rfl

theorem Fits.table_le (h : suite.Fits config) {values : Nat}
    (hvalues : values ≤ config.maxVars.toNat + 2) :
    (config.maxVars.toNat + 1 - suite.minVars.toNat) * values ≤ Room.limit := by
  have hle := Nat.mul_le_mul (Nat.sub_le (config.maxVars.toNat + 1) suite.minVars.toNat) hvalues
  have htable := h.table
  omega

/-! ### Lots one by one -/

/-- Whether a lot is made from some recipes, and refused if they are more than a list has room
for. -/
structure IsLot (suite : Suite) (config : FamilyConfig) (rs : List Recipe)
    (lot : Draw (List Instance)) : Prop where
  yields : Yields (suite.Fits config ∧ rs.length ≤ Room.limit) lot
    (List.Forall₂ (Recipe.Makes suite config) rs)
  refused : suite.Fits config → Room.limit < rs.length → ∀ s, lot s = .error .capacity

/-- A family is made for each relation. -/
theorem forall₂_relations (rs : Relation → List Recipe)
    {family : Relation → Checked (List Instance)}
    (hmakes : ∀ r instances, family r = .ok instances →
      List.Forall₂ (Recipe.Makes suite config) (rs r) instances)
    (hfits : ∀ r, suite.Fits config → (rs r).length ≤ Room.limit →
      ∃ instances, family r = .ok instances)
    (hrefused : ∀ r, suite.Fits config → Room.limit < (rs r).length →
      family r = .error .capacity) :
    List.Forall₂ (suite.IsLot config) (relations.map rs)
      (relations.map fun r => liftM (family r)) := by
  refine List.forall₂_map_left_iff.2 (List.forall₂_map_right_iff.2 (List.forall₂_same.2 ?_))
  intro r _
  refine ⟨.lift (hmakes r) fun h => hfits r h.1 h.2, fun h hlt s => ?_⟩
  rw [hrefused r h hlt]
  rfl

/-- A single instance always has room. -/
theorem isLot_single {r : Recipe} {made : Checked Instance}
    (hmakes : ∀ i, made = .ok i → r.Makes suite config i)
    (hfits : suite.Fits config → ∃ i, made = .ok i) : suite.IsLot config [r] (single made) where
  yields := .bind (.lift hmakes fun h => hfits h.1) fun _ hi => .pure (.cons hi .nil)
  refused _ hlt := by
    have hone : 1 ≤ Room.limit := by decide
    exact absurd hlt (Nat.not_lt.2 hone)

theorem forall₂_picked (suite : Suite) (config : FamilyConfig) :
    List.Forall₂ (suite.IsLot config) (suite.pickedRecipes.map ([·]))
      (suite.picked.map single) := by
  rw [picked, pickedRecipes]
  split
  · exact .cons (isLot_single (fun _ h => h) fun _ => ⟨_, rfl⟩)
      (.cons (isLot_single (fun _ h => h) fun _ => ⟨_, rfl⟩) .nil)
  · exact .nil

/-- The scaling family grows from one pair on. -/
theorem forall₂_scaling (suite : Suite) (config : FamilyConfig) :
    List.Forall₂ (suite.IsLot config) ((List.range' 1 suite.scaling.toNat).map ([.scaling ·]))
      ((List.range' 1 suite.scaling.toNat).map fun n =>
        single (Family.scaling suite.label (UInt32.ofNat n))) := by
  refine List.forall₂_map_left_iff.2 (List.forall₂_map_right_iff.2 (List.forall₂_same.2 ?_))
  intro n hn
  have hle := List.mem_range'_1.1 hn
  have hlt : n < UInt32.size := Nat.lt_of_le_of_lt (by omega) suite.scaling.toNat_lt
  have hword : (UInt32.ofNat n).toNat = n := UInt32.toNat_ofNat_of_lt' hlt
  refine isLot_single (fun i h => ?_) fun h => Family.exists_scaling ?_
  · have hscaling := Family.isScaling_of_scaling h
    rwa [hword] at hscaling
  · have hfits := h.scaling
    omega

/-- A random family is a lot. -/
theorem isLot_randomized {family : String} {magnitude : Int64} {count : Nat} {recipe : Nat → Recipe}
    (hmakes : ∀ k i, Family.IsRandom suite.label (family ++ toString k) magnitude
      (Var.range config.randomMaxVars) i → (recipe k).Makes suite config i)
    (hdraw : suite.Fits config →
      Drawable magnitude (Var.range config.randomMaxVars) ∨ config.randomMaxVars = 0) :
    suite.IsLot config ((Family.randomNumbers config count).map recipe)
      (Family.randomized config suite.label family count magnitude) where
  yields := by
    rw [List.length_map]
    exact (Family.yields_randomized config count).mono (fun h => ⟨hdraw h.1, h.2⟩) fun _ h =>
      List.forall₂_map_left_iff.2 (h.imp hmakes)
  refused _ hlt := Family.randomized_of_lt (by rwa [List.length_map] at hlt)

/-- The lots of a suite are made from its recipes. -/
theorem forall₂_lots (suite : Suite) (config : FamilyConfig) :
    List.Forall₂ (suite.IsLot config) (suite.recipeLots config) (suite.lots config) := by
  refine List.rel_append (List.rel_append (List.rel_append (List.rel_append (List.rel_append
    ?base ?negated) (forall₂_picked suite config)) ?binary) ?random) (forall₂_scaling suite config)
  case base =>
    refine forall₂_relations _ (fun _ _ h => List.forall₂_map_left_iff.2 (Family.forall₂_base h))
      (fun _ h _ => Family.exists_base h.uniform h.table) fun r h hlt => ?_
    rw [length_baseRecipes] at hlt
    exact absurd (h.table_le (by omega)) (Nat.not_le.2 hlt)
  case negated =>
    refine forall₂_relations _ (fun _ _ h => List.forall₂_map_left_iff.2 (Family.forall₂_negated h))
      (fun _ h _ => Family.exists_negated h.uniform h.table) fun r h hlt => ?_
    rw [length_negatedRecipes] at hlt
    exact absurd (h.table_le (Nat.le_refl _)) (Nat.not_le.2 hlt)
  case binary =>
    refine forall₂_relations _ (fun _ _ h => List.forall₂_map_left_iff.2 (Family.forall₂_binary h))
      (fun r h hle => Family.exists_binary h.binary ?_) fun r h hlt =>
        Family.binary_of_lt h.binary ?_
    · rwa [length_binaryRecipes] at hle
    · rwa [length_binaryRecipes] at hlt
  case random =>
    exact .cons (isLot_randomized (fun _ _ h => h) Fits.small)
      (.cons (isLot_randomized (fun _ _ h => h) Fits.large) .nil)

/-! ### The whole suite -/

/-- Lots are put into a list if it has room for them. -/
theorem yields_gather {rss : List (List Recipe)} {lots : List (Draw (List Instance))}
    (h : List.Forall₂ (suite.IsLot config) rss lots) {count room : Nat} (hroom : room ≤ Room.limit) :
    Yields (suite.Fits config ∧ ∃ r, Room.fill (rss.map List.length) count room = .ok r)
      (gather lots count room) (List.Forall₂ (Recipe.Makes suite config) rss.flatten) := by
  induction h generalizing count room with
  | nil => exact .pure .nil
  | @cons rs lot rss lots hlot _ ih =>
    rw [List.map_cons]
    refine .bind (hlot.yields.mono (fun ⟨hfits, r, hfill⟩ => ⟨hfits, Room.le_limit_of_fill hroom hfill⟩)
      fun _ => id) fun made hmade => ?_
    rw [← hmade.length_eq]
    refine .bind (P := fun room' => Room.grow room (count + rs.length) = .ok room')
      (.lift (fun _ => id) fun ⟨_, r, hfill⟩ => ?_) fun room' hgrow => ?_
    · obtain ⟨room', hgrow, _⟩ := bind_eq_ok.1 hfill
      exact ⟨room', hgrow⟩
    refine .bind ((ih (Room.bounds_of_grow hroom hgrow).2).mono (fun ⟨hfits, r, hfill⟩ => ?_)
      fun _ => id) fun rest hrest => .pure (List.rel_append hmade hrest)
    obtain ⟨room'', hgrow', hfill⟩ := bind_eq_ok.1 hfill
    obtain rfl := Except.ok.inj (hgrow.symm.trans hgrow')
    exact ⟨hfits, r, hfill⟩

/-- The instances of a suite are made from its recipes, one by one, if a list has room for them. -/
theorem yields_instances (suite : Suite) (config : FamilyConfig) :
    Yields (suite.Fits config ∧ suite.HasRoom config) (suite.instances config)
      (List.Forall₂ (Recipe.Makes suite config) (suite.recipes config)) := by
  have hgather := @yields_gather suite config _ _ (forall₂_lots suite config) 0 0 (Nat.zero_le _)
  rwa [flatten_recipeLots, map_length_recipeLots] at hgather

end Lots

end Suite

end PseudoBoolean
