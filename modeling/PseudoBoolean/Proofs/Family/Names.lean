import PseudoBoolean.Proofs.Directories
import PseudoBoolean.Proofs.Family.Lots
import PseudoBoolean.Proofs.Text.Decimal

/-!
The names of a suite's instances.

A name is the label of the suite and some pieces after it, with an underscore before each. No piece
holds an underscore, so a name tells its pieces (`named_inj`), and the pieces tell the recipe: what
is drawn at random comes after the number of the instance (`Recipe.Spells.unique`). So names differ
because recipes do, and each names a directory of its own.
-/

namespace PseudoBoolean

/-! ### Pieces -/

/-- Whether a text holds no underscore and no separator. -/
def IsPiece (s : String) : Prop := '_' ∉ s.toList ∧ '/' ∉ s.toList ∧ '\\' ∉ s.toList

instance (s : String) : Decidable (IsPiece s) := inferInstanceAs (Decidable (_ ∧ _))

/-- A label and some pieces, with an underscore before each piece. -/
def named (label : String) (pieces : List String) : String := "_".intercalate (label :: pieces)

section Pieces
variable {label : String} {pieces pieces' : List String}

theorem isPiece_of_digits {s : String} (h : ∀ c ∈ s.toList, c.isDigit = true ∨ c = '-') :
    IsPiece s := by
  refine ⟨fun hc => ?_, fun hc => ?_, fun hc => ?_⟩ <;> exact absurd (h _ hc) (by decide)

theorem isPiece_repr (n : Nat) : IsPiece n.repr :=
  isPiece_of_digits fun _ hc => Or.inl (Decimal.isDigit_of_mem_repr hc)

theorem isPiece_ofInt (n : Int) : IsPiece (Decimal.ofInt n) := by
  refine isPiece_of_digits fun c hc => ?_
  rw [Decimal.toList_ofInt] at hc
  split at hc
  · exact Or.inl (Decimal.isDigit_of_mem_repr hc)
  · exact (List.mem_cons.1 hc).symm.imp_left Decimal.isDigit_of_mem_repr

theorem isPiece_append {s t : String} (hs : IsPiece s) (ht : IsPiece t) : IsPiece (s ++ t) := by
  simp only [IsPiece, String.toList_append, List.mem_append, not_or]
  exact ⟨⟨hs.1, ht.1⟩, ⟨hs.2.1, ht.2.1⟩, hs.2.2, ht.2.2⟩

theorem isPiece_name (r : Relation) : IsPiece r.name := by
  cases r <;> decide

theorem name_inj {r r' : Relation} : r.name = r'.name ↔ r = r' := by
  cases r <;> cases r' <;> decide

theorem toList_named (h : pieces ≠ []) : (named label pieces).toList =
    label.toList ++ '_' :: ['_'].intercalate (pieces.map String.toList) := by
  rw [named, String.toList_intercalate, List.map_cons,
    List.intercalate_cons_of_ne_nil (by simpa using h), List.append_assoc]
  rfl

/-- A name tells its pieces. -/
theorem named_inj (hne : pieces ≠ []) (hne' : pieces' ≠ []) (h : ∀ p ∈ pieces, IsPiece p)
    (h' : ∀ p ∈ pieces', IsPiece p) (heq : named label pieces = named label pieces') :
    pieces = pieces' := by
  have hsplit : ∀ {ps : List String}, ps ≠ [] → (∀ p ∈ ps, IsPiece p) →
      (['_'].intercalate (ps.map String.toList)).splitOn '_' = ps.map String.toList := by
    intro ps hps hpieces
    refine List.splitOn_intercalate '_' ?_ (by simpa using hps)
    exact List.forall_mem_map.2 fun p hp => (hpieces p hp).1
  have hlist := congrArg String.toList heq
  rw [toList_named hne, toList_named hne'] at hlist
  have hrest := (List.cons.inj (List.append_cancel_left hlist)).2
  have hpieces := congrArg (List.splitOn '_') hrest
  rw [hsplit hne h, hsplit hne' h'] at hpieces
  exact List.map_injective_iff.2 (fun _ _ => String.toList_inj.1) hpieces

/-- A piece that holds an underscore is two pieces. -/
theorem named_split (a b c d : String) (rest : List String) (hrest : rest ≠ []) :
    named a (b :: (c ++ "_" ++ d) :: rest) = named a (b :: c :: d :: rest) := by
  simp only [named, String.intercalate_cons_of_ne_nil, ne_eq, List.cons_ne_nil, not_false_eq_true,
    hrest, String.append_assoc]

/-- A character of a name is one of the label, of a piece, or an underscore. -/
theorem mem_named {c : Char} (h : c ∈ (named label pieces).toList) :
    c ∈ label.toList ∨ c = '_' ∨ ∃ p ∈ pieces, c ∈ p.toList := by
  induction pieces generalizing label with
  | nil => exact Or.inl (by simpa [named] using h)
  | cons p pieces ih =>
    rw [named, String.intercalate_cons_of_ne_nil (List.cons_ne_nil _ _), String.toList_append,
      String.toList_append, List.append_assoc, List.mem_append] at h
    rcases h with h | h
    · exact Or.inl h
    · rcases List.mem_cons.1 h with rfl | h
      · exact Or.inr (Or.inl rfl)
      · rcases ih h with h | h | ⟨q, hq, h⟩
        · exact Or.inr (Or.inr ⟨p, List.mem_cons_self .., h⟩)
        · exact Or.inr (Or.inl h)
        · exact Or.inr (Or.inr ⟨q, List.mem_cons_of_mem _ hq, h⟩)

end Pieces

/-! ### What a name tells -/

/-- The pieces of a name: the relation, the family, the number of variables and the degree. -/
def spelled (rel : Relation) (family : List String) (vars : Nat) (degree : Int) : List String :=
  rel.name :: (family ++ [vars.repr, "vars", Decimal.ofInt degree, "degree"])

theorem ofInt_inj {a b : Int} : Decimal.ofInt a = Decimal.ofInt b ↔ a = b := by
  refine ⟨fun h => ?_, congrArg _⟩
  have hread := Decimal.integer?_eq_some.2 (Decimal.isInteger_ofInt a)
  rw [h, Decimal.integer?_eq_some.2 (Decimal.isInteger_ofInt b)] at hread
  exact (Option.some.inj hread).symm

theorem spelled_inj {rel rel' : Relation} {family family' : List String} {n n' : Nat} {d d' : Int} :
    spelled rel family n d = spelled rel' family' n' d' ↔
      rel = rel' ∧ family = family' ∧ n = n' ∧ d = d' := by
  refine ⟨fun h => ?_, by rintro ⟨rfl, rfl, rfl, rfl⟩; rfl⟩
  obtain ⟨hrel, h⟩ := List.cons.inj h
  obtain ⟨hfamily, hrest⟩ := List.append_inj' h rfl
  simp only [List.cons.injEq, and_true, true_and, Nat.repr_inj, ofInt_inj] at hrest
  exact ⟨name_inj.1 hrel, hfamily, hrest⟩

theorem isPiece_spelled {rel : Relation} {family : List String} (n : Nat) (d : Int)
    (h : ∀ p ∈ family, IsPiece p) : ∀ p ∈ spelled rel family n d, IsPiece p := by
  refine List.forall_mem_cons.2 ⟨isPiece_name rel, List.forall_mem_append.2 ⟨h, ?_⟩⟩
  simp only [List.forall_mem_cons]
  exact ⟨isPiece_repr n, by decide, isPiece_ofInt d, by decide, nofun⟩

namespace Recipe
variable {suite : Suite} {config : FamilyConfig} {factor : Int} {r r' : Recipe}
  {pieces : List String} {i : Instance}

/-- Whether a member of a recipe may be named by some pieces. -/
def Spells (factor : Int) : Recipe → List String → Prop
  | base rel (n, d), pieces => 0 ≤ n ∧ pieces = spelled rel ["base"] n.toNat (d * factor)
  | negated rel (n, d), pieces => 0 ≤ n ∧ pieces = spelled rel ["neg"] n.toNat (d * factor)
  | saturating, pieces => pieces = ["saturated", "1"]
  | propagating, pieces => pieces = ["propagating", "1"]
  | binary rel degree, pieces => ∃ n, pieces = spelled rel ["binary"] n degree
  | small index, pieces => ∃ rel n d, pieces = spelled rel ["random", "small" ++ index.repr] n d
  | large index, pieces => ∃ rel n d, pieces = spelled rel ["random", "large" ++ index.repr] n d
  | scaling pairs, pieces => ∃ d, pieces = spelled .geq ["scaling"] (2 * pairs) d

theorem Spells.isPiece (h : r.Spells factor pieces) : pieces ≠ [] ∧ ∀ p ∈ pieces, IsPiece p := by
  have hspelled {rel : Relation} {family : List String} {n : Nat} {d : Int}
      (hfamily : ∀ p ∈ family, IsPiece p) : spelled rel family n d ≠ [] ∧
        ∀ p ∈ spelled rel family n d, IsPiece p :=
    ⟨List.cons_ne_nil _ _, isPiece_spelled n d hfamily⟩
  have hrandom {size : String} (hsize : IsPiece size) (index : Nat) :
      ∀ p ∈ ["random", size ++ index.repr], IsPiece p := by
    simp only [List.forall_mem_cons]
    exact ⟨by decide, isPiece_append hsize (isPiece_repr index), nofun⟩
  cases r with
  | base rel numbers =>
    obtain ⟨_, rfl⟩ := h
    exact hspelled (by decide)
  | negated rel numbers =>
    obtain ⟨_, rfl⟩ := h
    exact hspelled (by decide)
  | saturating =>
    obtain rfl := h
    decide
  | propagating =>
    obtain rfl := h
    decide
  | binary rel degree =>
    obtain ⟨_, rfl⟩ := h
    exact hspelled (by decide)
  | small index =>
    obtain ⟨_, _, _, rfl⟩ := h
    exact hspelled (hrandom (by decide) index)
  | large index =>
    obtain ⟨_, _, _, rfl⟩ := h
    exact hspelled (hrandom (by decide) index)
  | scaling pairs =>
    obtain ⟨_, rfl⟩ := h
    exact hspelled (by decide)

/-- A number of variables and a multiple of the factor are told by their texts. -/
theorem numbers_inj {numbers numbers' : Int × Int} (hfactor : factor ≠ 0) (hn : 0 ≤ numbers.1)
    (hn' : 0 ≤ numbers'.1) (heq : numbers.1.toNat = numbers'.1.toNat)
    (hmul : numbers.2 * factor = numbers'.2 * factor) : numbers = numbers' :=
  Prod.ext (by omega) (mul_right_cancel₀ hfactor hmul)

theorem index_inj {rel rel' : Relation} {size : String} {index index' n n' : Nat} {d d' : Int}
    (h : spelled rel ["random", size ++ index.repr] n d =
      spelled rel' ["random", size ++ index'.repr] n' d') : index = index' := by
  obtain ⟨_, hfamily, _⟩ := spelled_inj.1 h
  simp only [List.cons.injEq, and_true, true_and] at hfamily
  exact Nat.repr_inj.1 ((String.append_right_inj _).1 hfamily)

theorem small_ne_large (index index' : Nat) : "small" ++ index.repr ≠ "large" ++ index'.repr := by
  intro h
  have hlist := congrArg String.toList h
  rw [String.toList_append, String.toList_append] at hlist
  exact absurd (List.cons.inj hlist).1 (by decide)

/-- The pieces of a name tell the recipe. -/
theorem Spells.unique (hfactor : factor ≠ 0) (h : r.Spells factor pieces)
    (h' : r'.Spells factor pieces) : r = r' := by
  cases r <;> cases r'
  case base.base rel numbers rel' numbers' =>
    obtain ⟨hn, rfl⟩ := h
    obtain ⟨hn', h'⟩ := h'
    obtain ⟨rfl, -, heq, hmul⟩ := spelled_inj.1 h'
    rw [numbers_inj hfactor hn hn' heq hmul]
  case negated.negated rel numbers rel' numbers' =>
    obtain ⟨hn, rfl⟩ := h
    obtain ⟨hn', h'⟩ := h'
    obtain ⟨rfl, -, heq, hmul⟩ := spelled_inj.1 h'
    rw [numbers_inj hfactor hn hn' heq hmul]
  case binary.binary rel degree rel' degree' =>
    obtain ⟨n, rfl⟩ := h
    obtain ⟨n', h'⟩ := h'
    obtain ⟨rfl, -, -, hdegree⟩ := spelled_inj.1 h'
    rw [Int.natCast_inj.1 hdegree]
  case small.small index index' =>
    obtain ⟨_, _, _, rfl⟩ := h
    obtain ⟨_, _, _, h'⟩ := h'
    rw [index_inj h']
  case large.large index index' =>
    obtain ⟨_, _, _, rfl⟩ := h
    obtain ⟨_, _, _, h'⟩ := h'
    rw [index_inj h']
  case scaling.scaling pairs pairs' =>
    obtain ⟨_, rfl⟩ := h
    obtain ⟨_, h'⟩ := h'
    obtain ⟨-, -, hpairs, -⟩ := spelled_inj.1 h'
    rw [Nat.eq_of_mul_eq_mul_left (by decide) hpairs]
  -- names of two families differ in the family, or in how many pieces they have
  all_goals grind [Spells, spelled, small_ne_large]

theorem name_eq_named (label : String) (rel : Relation) (family : String) (n : Nat)
    (degree : Int64) : Family.name label rel family n degree =
      named label (spelled rel [family] n degree.toInt) := rfl

/-- The name of a random family is two pieces, and the number of the instance ends the second. -/
theorem name_random (size : String) {label family : String} {rel : Relation} {index n : Nat}
    {degree : Int64} (hfamily : family = "random" ++ "_" ++ size) :
    Family.name label rel (family ++ toString index) n degree =
      named label (spelled rel ["random", size ++ index.repr] n degree.toInt) := by
  rw [name_eq_named, hfamily, String.append_assoc]
  exact named_split _ _ _ _ _ (List.cons_ne_nil _ _)

/-- The name of an instance that is picked by hand. -/
theorem named_picked {ending family : String} (h : ending = "_" ++ (family ++ ("_" ++ "1")))
    (label : String) : label ++ ending = named label [family, "1"] := by
  rw [named, String.intercalate_cons_of_ne_nil (List.cons_ne_nil _ _),
    String.intercalate_cons_of_ne_nil (List.cons_ne_nil _ _), String.intercalate_singleton, h,
    String.append_assoc, String.append_assoc]

/-- A member is named by the label of its suite and pieces of its recipe. -/
theorem Makes.exists_spells (h : r.Makes suite config i) :
    ∃ pieces, r.Spells suite.factor.toInt pieces ∧ i.name = named suite.label pieces := by
  cases r with
  | base rel numbers =>
    obtain ⟨degree, hdegree, hname⟩ := h.name_eq
    rw [name_eq_named, hdegree] at hname
    exact ⟨_, ⟨h.count_nonneg, rfl⟩, hname⟩
  | negated rel numbers =>
    obtain ⟨degree, hdegree, hname⟩ := h.name_eq
    rw [name_eq_named, hdegree] at hname
    exact ⟨_, ⟨h.count_nonneg, rfl⟩, hname⟩
  | saturating => exact ⟨_, rfl, (Instance.make_eq_ok.1 h).1.trans (named_picked (by decide) _)⟩
  | propagating => exact ⟨_, rfl, (Instance.make_eq_ok.1 h).1.trans (named_picked (by decide) _)⟩
  | binary rel degree =>
    have hname := h.name_eq
    rw [name_eq_named, h.degree_eq] at hname
    exact ⟨_, ⟨_, rfl⟩, hname⟩
  | small index =>
    have hname := h.name_eq
    rw [name_random "small" (by decide)] at hname
    exact ⟨_, ⟨_, _, _, rfl⟩, hname⟩
  | large index =>
    have hname := h.name_eq
    rw [name_random "large" (by decide)] at hname
    exact ⟨_, ⟨_, _, _, rfl⟩, hname⟩
  | scaling pairs =>
    have hname := h.name_eq
    rw [name_eq_named] at hname
    exact ⟨_, ⟨_, rfl⟩, hname⟩

/-- A name begins with the label, and an underscore after it. -/
theorem Makes.prefix_name (h : r.Makes suite config i) :
    suite.label.toList ++ ['_'] <+: i.name.toList := by
  obtain ⟨pieces, hspells, hname⟩ := h.exists_spells
  rw [hname, toList_named hspells.isPiece.1]
  exact ⟨_, (List.append_cons _ _ _).symm⟩

theorem Makes.name_ne (h : r.Makes suite config i) {name : String} (hname : '_' ∉ name.toList) :
    i.name ≠ name := by
  rintro rfl
  exact hname (h.prefix_name.subset (List.mem_append_right _ (List.mem_singleton_self _)))

/-- A name names a directory if its label could. -/
theorem Makes.isValidName (h : r.Makes suite config i) (hslash : '/' ∉ suite.label.toList)
    (hback : '\\' ∉ suite.label.toList) : Artifacts.isValidName i.name = true := by
  obtain ⟨pieces, hspells, hname⟩ := h.exists_spells
  have hpieces := hspells.isPiece.2
  have hmem {c : Char} (hlabel : c ∉ suite.label.toList) (hc : c ≠ '_')
      (hpiece : ∀ p ∈ pieces, c ∉ p.toList) : c ∉ i.name.toList := by
    intro hmem
    rw [hname] at hmem
    rcases mem_named hmem with h | h | ⟨p, hp, h⟩
    · exact hlabel h
    · exact hc h
    · exact hpiece p hp h
  simp only [Artifacts.isValidName, Bool.and_eq_true, decide_eq_true_eq, Bool.not_eq_true',
    List.contains_eq_mem, decide_eq_false_iff_not]
  exact ⟨⟨h.name_ne (by decide), hmem hslash (by decide) fun p hp => (hpieces p hp).2.1⟩,
    hmem hback (by decide) fun p hp => (hpieces p hp).2.2⟩

end Recipe

/-! ### The names of a suite -/

namespace Suite
variable {suite : Suite} {config : FamilyConfig} {instances : List Instance} {s s' : Stream}

/-- What is made from the recipes of a suite has names that differ. -/
theorem nodup_names (hfactor : suite.factor ≠ 0)
    (h : List.Forall₂ (Recipe.Makes suite config) (suite.recipes config) instances) :
    (instances.map Instance.name).Nodup := by
  have hnonzero : suite.factor.toInt ≠ 0 := fun h => hfactor (Int64.toInt_inj.1 h)
  have hnames : List.Forall₂ (fun r name => ∃ pieces, r.Spells suite.factor.toInt pieces ∧
      name = named suite.label pieces) (suite.recipes config) (instances.map Instance.name) :=
    List.forall₂_map_right_iff.2 (h.imp fun _ _ h => h.exists_spells)
  refine nodup_of_forall₂ hnames (nodup_recipes suite config) fun r _ r' _ name hr hr' => ?_
  obtain ⟨pieces, hspells, rfl⟩ := hr
  obtain ⟨pieces', hspells', heq⟩ := hr'
  obtain rfl := named_inj hspells.isPiece.1 hspells'.isPiece.1 hspells.isPiece.2
    hspells'.isPiece.2 heq
  exact hspells.unique hnonzero hspells'

/-- The instances of a suite have different names that begin with its label. If the label could name
a directory, each of them names one of its own below any root. -/
theorem instances_named_apart (hfactor : suite.factor ≠ 0)
    (h : suite.instances config s = .ok (instances, s')) :
    (instances.map Instance.name).Nodup ∧
    (∀ i ∈ instances, suite.label.toList <+: i.name.toList) ∧
    ('/' ∉ suite.label.toList → '\\' ∉ suite.label.toList → ∀ root : Path,
      ∃ artifacts, instances.mapM (fun i => Artifacts.ofName root i.name) = .ok artifacts ∧
        (artifacts.map fun a => Store.place a.dir).Nodup) := by
  have hmade := (yields_instances suite config).of_eq_ok h
  have hnodup := nodup_names hfactor hmade
  refine ⟨hnodup, fun i hi => ?_, fun hslash hback root => ?_⟩
  · obtain ⟨r, _, hr⟩ := exists_mem_of_forall₂ hmade i hi
    exact (List.prefix_append _ _).trans hr.prefix_name
  · have haccepted : ∀ i ∈ instances,
        Artifacts.ofName root i.name = .ok ⟨root.join i.name, i.name⟩ := by
      intro i hi
      obtain ⟨r, _, hr⟩ := exists_mem_of_forall₂ hmade i hi
      exact if_pos (hr.isValidName hslash hback)
    have hproper : ∀ name ∈ instances.map Instance.name,
        '/' ∉ name.toList ∧ name ≠ "" ∧ name ≠ "." ∧ name ≠ ".." := by
      refine List.forall_mem_map.2 fun i hi => ?_
      obtain ⟨r, _, hr⟩ := exists_mem_of_forall₂ hmade i hi
      have hname := Artifacts.isValid_of_ofName (haccepted i hi)
      exact ⟨hname.slash_notMem, hname.ne_empty, hr.name_ne (by decide), hr.name_ne (by decide)⟩
    refine ⟨instances.map fun i => ⟨root.join i.name, i.name⟩, ?_, ?_⟩
    · rw [mapM_eq_ok, List.forall₂_map_right_iff, List.forall₂_same]
      exact haccepted
    · have hplaces := Store.nodup_places root hnodup hproper
      simp only [List.map_map, Function.comp_def] at hplaces ⊢
      exact hplaces

theorem instances_named_apart_sample :
    ∃ instances s', adder.instances .standard (Stream.ofSeed 42) = .ok (instances, s') ∧
      (instances.map Instance.name).Nodup ∧
      ∃ artifacts, instances.mapM (fun i => Artifacts.ofName ⟨"g"⟩ i.name) = .ok artifacts ∧
        (artifacts.map fun a => Store.place a.dir).Nodup := by
  obtain ⟨instances, s', h, _⟩ :=
    (yields_instances adder .standard).exists_ok ⟨fits_adder, by decide⟩ (Stream.ofSeed 42)
  obtain ⟨hnodup, _, hplaces⟩ := instances_named_apart (by decide) h
  exact ⟨instances, s', h, hnodup, hplaces (by decide) (by decide) ⟨"g"⟩⟩

end Suite

end PseudoBoolean
