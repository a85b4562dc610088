/-!
# Paths

A path selects elements or attributes by registry symbols. It is a list of steps: element steps
along the child or descendant axis, at most one attribute step at the end, and predicates that
filter the elements reached so far.
-/

namespace PartPatch

set_option autoImplicit false

inductive Axis where
  | child
  | descendant
deriving DecidableEq, Repr

inductive NameTest where
  | named (symbol : String)
  | any
deriving DecidableEq, Repr

/-- A predicate holds of an element if `path` selects something from it and, where a variable is
given, one of the selected nodes has that variable's value as its string value. -/
inductive Step where
  | element (axis : Axis) (test : NameTest)
  | attribute (symbol : String)
  | predicate (path : List Step) (equals : Option String)
deriving Repr

structure Path where
  steps : List Step
deriving Repr

/-- A path under its registry key, with the text it was read from. -/
structure NamedPath where
  name : String
  source : String
  path : Path
deriving Repr

namespace Step

mutual

def same : Step → Step → Bool
  | .element a t, .element b u => a == b && t == u
  | .attribute a, .attribute b => a == b
  | .predicate p v, .predicate q w => sameAll p q && v == w
  | _, _ => false

def sameAll : List Step → List Step → Bool
  | [], [] => true
  | a :: p, b :: q => same a b && sameAll p q
  | _, _ => false

end

mutual

theorem eq_of_same : ∀ {a b : Step}, same a b = true → a = b
  | .element _ _, .element _ _, h => by simpa [same] using h
  | .attribute _, .attribute _, h => by simpa [same] using h
  | .predicate p _, .predicate q _, h => by
    simp only [same, Bool.and_eq_true, beq_iff_eq] at h
    rw [eq_of_sameAll h.1, h.2]
  | .element _ _, .attribute _, h => by simp [same] at h
  | .element _ _, .predicate _ _, h => by simp [same] at h
  | .attribute _, .element _ _, h => by simp [same] at h
  | .attribute _, .predicate _ _, h => by simp [same] at h
  | .predicate _ _, .element _ _, h => by simp [same] at h
  | .predicate _ _, .attribute _, h => by simp [same] at h

theorem eq_of_sameAll : ∀ {p q : List Step}, sameAll p q = true → p = q
  | [], [], _ => rfl
  | a :: p, b :: q, h => by
    simp only [sameAll, Bool.and_eq_true] at h
    rw [eq_of_same h.1, eq_of_sameAll h.2]
  | [], _ :: _, h => by simp [sameAll] at h
  | _ :: _, [], h => by simp [sameAll] at h

end

mutual

theorem same_self : ∀ a : Step, same a a = true
  | .element _ _ => by simp [same]
  | .attribute _ => by simp [same]
  | .predicate p _ => by simp [same, sameAll_self p]

theorem sameAll_self : ∀ p : List Step, sameAll p p = true
  | [] => rfl
  | a :: p => by simp [sameAll, same_self a, sameAll_self p]

end

instance : DecidableEq Step := fun a b =>
  if h : same a b = true then isTrue (eq_of_same h)
  else isFalse fun e => h (e ▸ same_self a)

mutual

/-- The step and, for a predicate, all steps inside it, in the order of the text. -/
def nested : Step → List Step
  | .predicate path equals => .predicate path equals :: nestedAll path
  | step => [step]

def nestedAll : List Step → List Step
  | [] => []
  | step :: steps => nested step ++ nestedAll steps

end

def elementSymbol? : Step → Option String
  | .element _ (.named symbol) => some symbol
  | _ => none

def attributeSymbol? : Step → Option String
  | .attribute symbol => some symbol
  | _ => none

def comparison? : Step → Option String
  | .predicate _ equals => equals
  | _ => none

end Step

deriving instance DecidableEq for Path
deriving instance DecidableEq for NamedPath

/-- The members of a list without repetition, in ascending order. -/
def sortedDistinct (names : List String) : List String :=
  names.eraseDups.mergeSort (fun a b => decide (a ≤ b))

namespace Path

/-- Whether the path ends in an attribute step. -/
def selectsAttribute (p : Path) : Bool :=
  match p.steps.getLast? with
  | some (.attribute _) => true
  | _ => false

def elementSymbols (p : Path) : List String :=
  sortedDistinct ((Step.nestedAll p.steps).filterMap Step.elementSymbol?)

def attributeSymbols (p : Path) : List String :=
  sortedDistinct ((Step.nestedAll p.steps).filterMap Step.attributeSymbol?)

/-- The variables that predicates compare with. -/
def variableNames (p : Path) : List String :=
  sortedDistinct ((Step.nestedAll p.steps).filterMap Step.comparison?)

end Path

end PartPatch
