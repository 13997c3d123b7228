import PseudoBoolean.Instance.Basic
import PseudoBoolean.Instance.Room
import PseudoBoolean.Random.Stream

/-!
Families of test instances.

A family is a function of a few small parameters. Those that draw at random share one stream, so a
seed fixes every instance and their order. Names read
`<label>_<geq|eq>_<family>_<n>_vars_<d>_degree`, but for the two picked by hand. A family that is
larger than any list is refused (`Fault.capacity`), and where its size is known beforehand, before
its first instance is made.
-/

namespace PseudoBoolean

/-- The parameters of all families. -/
structure FamilyConfig where
  seed : UInt64
  /-- The largest number of variables with equal coefficients. -/
  maxVars : UInt32
  /-- The number of binary weights. -/
  binaryBits : UInt32
  /-- The number of random instances with small coefficients, and with large ones. -/
  randomSmall : Nat
  randomLarge : Nat
  /-- The largest number of variables of a random instance. -/
  randomMaxVars : UInt32
  smallMagnitude : Int64
  largeMagnitude : Int64

/-- The parameters used where none are named. -/
def FamilyConfig.standard : FamilyConfig := ⟨42, 3, 3, 8, 4, 6, 10, 20000⟩

namespace Family

/-- The name of a generated instance. -/
def name (label : String) (relation : Relation) (family : String) (vars : Nat) (degree : Int64) :
    String :=
  "_".intercalate [label, relation.name, family, toString vars, "vars",
    Decimal.ofInt degree.toInt, "degree"]

/-- The integers from `lo` to `hi`. -/
def integers (lo hi : Int) : List Int :=
  (List.range (hi - lo + 1).toNat).map fun (i : Nat) => lo + i

/-- A table of instances as a list, into which they are put one by one. -/
def listed (rows : List (List Instance)) : Checked (List Instance) := do
  let _ ← Room.fillNew (List.replicate rows.flatten.length 1)
  return rows.flatten

/-- `Σ factor · xᵢ` against `factor · d`, for `n` from `minVars` and `d` from 0 to `maxVars`. -/
def base (config : FamilyConfig) (label : String) (relation : Relation) (factor : Int64)
    (minVars : UInt32) : Checked (List Instance) := do
  let pool := Var.range config.maxVars
  let byCount ← (integers minVars.toNat config.maxVars.toNat).mapM fun n =>
    (integers 0 config.maxVars.toNat).mapM fun d => do
      let degree ← Word.mul (Int64.ofInt d) factor
      Instance.make (name label relation "base" n.toNat degree)
        (List.replicate n.toNat factor) (pool.take n.toNat) degree relation
  listed byCount

/-- `Σ -factor · xᵢ` against `-factor · d`, for `d` from -1 on. The name carries `factor · d`. -/
def negated (config : FamilyConfig) (label : String) (relation : Relation) (factor : Int64)
    (minVars : UInt32) : Checked (List Instance) := do
  let pool := Var.range config.maxVars
  let byCount ← (integers minVars.toNat config.maxVars.toNat).mapM fun n =>
    (integers (-1) config.maxVars.toNat).mapM fun d => do
      let degree ← Word.mul (Int64.ofInt d) factor
      let coeff ← Word.neg factor
      Instance.make (name label relation "neg" n.toNat degree)
        (List.replicate n.toNat coeff) (pool.take n.toNat) (← Word.neg degree) relation
  listed byCount

/-- The weight of a bit. The highest bit of a word is its sign. -/
def bitWeight (bit : Nat) : Checked Int64 :=
  if bit < 64 then .ok (Int64.ofNat (Nat.pow 2 bit)) else .error (.overflow .shiftLeft)

/-- The weights 1, 2, 4, … against every degree below twice their number of sums. -/
def binaryWeights (config : FamilyConfig) (label : String) (relation : Relation) :
    Checked (List Instance) := do
  let bits := config.binaryBits.toNat
  -- the first weight without a word stops the family before any list is made
  let coeffs ← (List.range (min bits 65)).mapM bitWeight
  let bound ← bitWeight (bits + 1)
  let count ← Room.take bound.toInt.toNat
  (List.range count).mapM fun d =>
    let degree := Int64.ofNat d
    Instance.make (name label relation "binary" bits degree) coeffs (Var.range config.binaryBits)
      degree relation

/-- `10 x1 + 2 x2 + 2 x3 >= 5`: the first literal alone exceeds the degree. -/
def saturating (label : String) : Checked Instance :=
  Instance.make (label ++ "_saturated_1") [10, 2, 2] (Var.range 3) 5 .geq

/-- `-3 x1 - 2 x2 - 2 x3 >= -2`: `x1` is false, and one of the others at most is true. -/
def propagating (label : String) : Checked Instance :=
  Instance.make (label ++ "_propagating_1") [-3, -2, -2] (Var.range 3) (-2) .geq

/-! ### Random families -/

/-- A random instance over the first variables of a pool, which is shuffled first. Its degree lies
between one below the least sum and one above the greatest. -/
def randomInstance (label family : String) (magnitude : Int64) (pool : List Var) :
    Draw (Instance × List Var) := do
  let n := (← Draw.range .bits32 1 pool.length).toNat
  let pool ← Draw.shuffle pool
  let coeffs ← (List.range n).mapM fun _ => do
    let low ← Word.neg magnitude
    return Int64.ofInt (← Draw.range .bits64 low.toInt magnitude.toInt)
  let low ← Word.sum (coeffs.filter (· < 0))
  let high ← Word.sum (coeffs.filter (0 < ·))
  let first ← Word.sub low 1
  let last ← Word.add high 1
  let degree := Int64.ofInt (← Draw.range .bits64 first.toInt last.toInt)
  let relation := if ← Draw.coin then Relation.geq else Relation.eq
  let made ←
    Instance.make (name label relation family n degree) coeffs (pool.take n) degree relation
  return (made, pool)

/-- Random instances numbered from `index` on, `count` of them. -/
def randomFrom (label family : String) (magnitude : Int64) :
    (count index : Nat) → List Var → Draw (List Instance)
  | 0, _, _ => return []
  | count + 1, index, pool => do
    let (made, pool) ← randomInstance label (family ++ toString index) magnitude pool
    return made :: (← randomFrom label family magnitude count (index + 1) pool)

/-- Random instances, none if there are no variables to draw from. -/
def randomized (config : FamilyConfig) (label family : String) (count : Nat) (magnitude : Int64) :
    Draw (List Instance) :=
  match Var.range config.randomMaxVars with
  | [] => return []
  | pool => do randomFrom label family magnitude (← Room.take count) 0 pool

/-- Random instances with small coefficients. -/
def randomizedSmall (config : FamilyConfig) (label : String) : Draw (List Instance) :=
  randomized config label "random_small" config.randomSmall config.smallMagnitude

/-- Random instances with large coefficients. -/
def randomizedLarge (config : FamilyConfig) (label : String) : Draw (List Instance) :=
  randomized config label "random_large" config.randomLarge config.largeMagnitude

/-! ### Scaling family -/

/-- The pairs of a list, from its head. -/
def pairs {α : Type} : List α → List (α × α)
  | a :: b :: rest => (a, b) :: pairs rest
  | _ => []

/-- At most one of two variables. -/
def atMostOne (v w : Var) : Checked Row :=
  ((Expression.raw [⟨-1, v.pos⟩, ⟨-1, w.pos⟩]).geq (-1)).normalize

/-- `2n` variables in pairs, more than `n` of them true and at most one of each pair: infeasible. -/
def scaling (label : String) (n : UInt32) : Checked Instance := do
  let vars := Var.range (← Word.checkedCount .multiply (2 * n.toNat))
  let sideRows ← (pairs vars).mapM fun (v, w) => atMostOne v w
  let degree := Int64.ofInt (n.toNat + 1)
  let made ← Instance.make (name label .geq "scaling" vars.length degree)
    (List.replicate vars.length 1) vars degree .geq
  return made.withSideRows sideRows

end Family

end PseudoBoolean
