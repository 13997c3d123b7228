import PseudoBoolean.Instance.Family

/-!
Suites: an encoding strategy with the families that exercise it.
-/

namespace PseudoBoolean

/-- A named strategy and the parameters of its families. -/
structure Suite where
  label : String
  strategy : Strategy
  factor : Int64
  minVars : UInt32
  handPicked : Bool
  /-- The largest instance of the scaling family, zero for none. -/
  scaling : UInt32

namespace Suite

def totalizer : Suite := ⟨"totalizer", ⟨.totalizer, .generalizedTotalizer⟩, 1, 0, false, 3⟩

def sequential : Suite := ⟨"seq", ⟨.sequentialCounter, .generalizedTotalizer⟩, 1, 0, false, 3⟩

def generalized : Suite := ⟨"gte", ⟨.sequentialCounter, .generalizedTotalizer⟩, 2, 1, true, 0⟩

def adder : Suite := ⟨"adder", ⟨.sequentialCounter, .adder⟩, 2, 1, true, 0⟩

/-- The suites in order. -/
def all : List Suite := [totalizer, sequential, generalized, adder]

/-- The suite with a given label. -/
def byName? (label : String) : Option Suite := all.find? (·.label = label)

/-- One instance as a lot of its own. -/
def single (made : Checked Instance) : Draw (List Instance) := do return [← made]

/-- The instances picked by hand. -/
def picked (suite : Suite) : List (Checked Instance) :=
  if suite.handPicked then [Family.saturating suite.label, Family.propagating suite.label] else []

/-- Both relations, in the order of the families. -/
def relations : List Relation := [.geq, .eq]

/-- What a suite is put together from, in this order: each family for one relation, or a single
instance. -/
def lots (suite : Suite) (config : FamilyConfig) : List (Draw (List Instance)) :=
  (relations.map fun r => liftM (Family.base config suite.label r suite.factor suite.minVars)) ++
    (relations.map fun r =>
      liftM (Family.negated config suite.label r suite.factor suite.minVars)) ++
    suite.picked.map single ++
    (relations.map fun r => liftM (Family.binaryWeights config suite.label r)) ++
    [Family.randomizedSmall config suite.label, Family.randomizedLarge config suite.label] ++
    (List.range' 1 suite.scaling.toNat).map fun n =>
      single (Family.scaling suite.label (UInt32.ofNat n))

/-- Makes lots and puts them into a list of `count` instances, which grows for each of them before
the next one is made. -/
def gather : (lots : List (Draw (List Instance))) → (count room : Nat) → Draw (List Instance)
  | [], _, _ => return []
  | lot :: lots, count, room => do
    let made ← lot
    let room ← Room.grow room (count + made.length)
    return made ++ (← gather lots (count + made.length) room)

/-- The instances of a suite: every family, in a fixed order. -/
def instances (suite : Suite) (config : FamilyConfig) : Draw (List Instance) :=
  gather (suite.lots config) 0 0

end Suite

end PseudoBoolean
