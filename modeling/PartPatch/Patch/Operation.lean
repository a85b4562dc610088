/-!
# Patch operations

An operation names what it acts on by registry keys. A patch is a list of operations to be applied
in order.
-/

namespace PartPatch

set_option autoImplicit false

inductive OperationKind where
  | set
  | insert
  | remove
  | ensurePath
  | ensurePart
  | ensureAttr
deriving DecidableEq, Repr

def OperationKind.text : OperationKind → String
  | .set => "set"
  | .insert => "insert"
  | .remove => "remove"
  | .ensurePath => "ensurePath"
  | .ensurePart => "ensurePart"
  | .ensureAttr => "ensureAttr"

/-- Where something new goes, relative to the anchor. -/
inductive Placement where
  | before
  | after
  | prepend
  | append
deriving DecidableEq, Repr

def Placement.text : Placement → String
  | .before => "before"
  | .after => "after"
  | .prepend => "prepend"
  | .append => "append"

/-- What is inserted: an instance of a fragment, or a text. -/
inductive Payload where
  | fragment (key : String)
  | text (value : String)
deriving DecidableEq, Repr

inductive Operation where
  | set (target value : String)
  | insert (target anchor : String) (payload : Payload) (placement : Placement)
  | remove (target : String)
  | ensurePath (target anchor fragment : String) (placement : Placement)
  | ensurePart (part fragment : String)
  | ensureAttr (target attr value : String)
deriving DecidableEq, Repr

namespace Operation

def kind : Operation → OperationKind
  | .set _ _ => .set
  | .insert _ _ _ _ => .insert
  | .remove _ => .remove
  | .ensurePath _ _ _ _ => .ensurePath
  | .ensurePart _ _ => .ensurePart
  | .ensureAttr _ _ _ => .ensureAttr

/-- The registry keys that the operation refers to. -/
def keys : Operation → List String
  | .set target _ | .remove target => [target]
  | .insert target anchor (.fragment fragment) _ => [target, anchor, fragment]
  | .insert target anchor (.text _) _ => [target, anchor]
  | .ensurePath target anchor fragment _ => [target, anchor, fragment]
  | .ensurePart part fragment => [part, fragment]
  | .ensureAttr target attr _ => [target, attr]

end Operation

structure OperationRecord where
  operation : Operation
  /-- Whether a target that is missing or ambiguous is passed over. -/
  optional : Bool
deriving DecidableEq, Repr

structure PatchMetadata where
  name : String
  description : Option String
  /-- The versions of the registry that the patch is meant for. -/
  registryVersion : Option String
deriving DecidableEq, Repr

structure Patch where
  metadata : PatchMetadata
  operations : List OperationRecord
deriving DecidableEq, Repr

end PartPatch
