import PartPatch.Fragment.Instance
import PartPatch.Package.Basic
import PartPatch.Patch.Operation
import PartPatch.Selection
import PartPatch.Version.Requirement

/-!
# Applying patches

A session applies patches to one tree. Operations run in their order, each on what those before it
left. An operation that fails leaves tree and allocator as they were, and ends the run; what earlier
operations did stays. After a run the tree is compacted.
-/

namespace PartPatch

set_option autoImplicit false

inductive OperationError where
  | unknownRef (table key : String)
  | targetNotFound (key : String)
  | ambiguousTarget (key : String) (count : Nat)
  | attributeTarget (key : String)
  | ensureFailed (target fragment : String)
  | binding (e : Binding.Error)
  | selection (e : Selection.Unbound)
  | fragment (e : Fragment.Error)
  | unresolvedToken (e : Token.Unresolved)
  | part (e : PartError)
  | tree (e : TreeError)
deriving DecidableEq, Repr

namespace OperationError

def message : OperationError → String
  | .unknownRef table key => "'" ++ key ++ "' is not defined in registry " ++ table
  | .targetNotFound key => "target '" ++ key ++ "' matched no nodes"
  | .ambiguousTarget key count =>
    "target '" ++ key ++ "' matched " ++ toString count ++ " nodes (expected 1)"
  | .attributeTarget key =>
    "'" ++ key ++ "' cannot be used here: expected an element, found an attribute"
  | .ensureFailed target used =>
    "'" ++ target ++ "' still matched nothing after inserting fragment '" ++ used ++ "'"
  | .binding e => e.message
  | .selection e => e.message
  | .fragment e => e.message
  | .unresolvedToken e => e.message
  | .part e => e.message
  | .tree e => e.message

/-- Whether an optional operation may be skipped for this reason. -/
def isMatchFailure : OperationError → Bool
  | .targetNotFound _ | .ambiguousTarget _ _ => true
  | _ => false

end OperationError

inductive OperationResult where
  | applied
  | alreadyApplied
  | skipped (reason : String)
  /-- The patch is not meant for the version of the registry. -/
  | skippedVersion (reason : String)
deriving DecidableEq, Repr

def OperationResult.text : OperationResult → String
  | .applied => "applied"
  | .alreadyApplied => "already applied"
  | .skipped reason => "skipped: " ++ reason
  | .skippedVersion reason => "skipped (version): " ++ reason

structure OperationOutcome where
  index : Nat
  kind : OperationKind
  keys : List String
  result : OperationResult
deriving DecidableEq, Repr

structure PatchReport where
  name : String
  outcomes : List OperationOutcome
deriving DecidableEq, Repr

namespace PatchReport

def count (r : PatchReport) (p : OperationResult → Bool) : Nat :=
  r.outcomes.countP fun o => p o.result

def applied (r : PatchReport) : Nat :=
  r.count (· == .applied)

def alreadyApplied (r : PatchReport) : Nat :=
  r.count (· == .alreadyApplied)

def skipped (r : PatchReport) : Nat :=
  r.count fun
    | .skipped _ | .skippedVersion _ => true
    | _ => false

/-- Whether nothing was changed. -/
def isNoop (r : PatchReport) : Bool :=
  r.applied == 0

end PatchReport

/-- The failure of an operation, with its place in the patch. -/
structure PatchError where
  index : Nat
  kind : OperationKind
  keys : List String
  cause : OperationError
deriving DecidableEq, Repr

/-- The operation's number, kind and keys. -/
def operationLabel (index : Nat) (kind : OperationKind) (keys : List String) : String :=
  "#" ++ toString index ++ " " ++ kind.text ++ " [" ++ ", ".intercalate keys ++ "]"

def PatchError.message (e : PatchError) : String :=
  "operation #" ++ toString e.index ++ " (" ++ e.kind.text ++ ") [" ++ ", ".intercalate e.keys ++
    "]: " ++ e.cause.message

/-- What a session works with: a registry, tokens, and whether all operations are optional. -/
structure Session where
  registry : Registry
  tokens : Token.Resolver
  allOptional : Bool

/-- What a session works on. -/
structure Workspace (P : Type) where
  tree : Tree
  ids : Allocator
  package : P

/-- The part of a workspace that operations on the tree see. -/
structure Draft where
  tree : Tree
  ids : Allocator

/-- An action on a draft. What it has done before it fails stays done. -/
abbrev Edit := ExceptT OperationError (StateM Draft)

namespace Session

def fragment (s : Session) (key : String) : Except OperationError Fragment :=
  match s.registry.fragment? key with
  | some f => .ok f
  | none => .error (.unknownRef "fragments" key)

/-- The nodes that the path under a key selects. -/
def select (s : Session) (t : Tree) (key : String) : Except OperationError (List NodeRef) :=
  match s.registry.path? key with
  | none => .error (.unknownRef "paths" key)
  | some p => do
    let b ← (Binding.bind s.registry p).mapError .binding
    let b ← (b.withTokens key s.tokens).mapError .binding
    (p.select t b).mapError .selection

/-- The only node that the path selects. -/
def selectOne (s : Session) (t : Tree) (key : String) : Except OperationError NodeRef := do
  match ← s.select t key with
  | [] => throw (.targetNotFound key)
  | [node] => return node
  | nodes => throw (.ambiguousTarget key nodes.length)

/-- The only node that the path selects, which has to be an element. -/
def selectElement (s : Session) (t : Tree) (key : String) : Except OperationError NodeId := do
  match ← s.selectOne t key with
  | .element id => return id
  | .attribute _ _ => throw (.attributeTarget key)

def substitute (s : Session) (value : String) : Except OperationError String :=
  (Token.substitute value s.tokens).mapError .unresolvedToken

/-- Gives a node the text or value. -/
def assign (t : Tree) (node : NodeRef) (value : String) : Except TreeError Tree :=
  match node with
  | .element id => t.setText id value
  | .attribute owner index =>
    match t.attributeAt? owner index with
    | some a => t.setAttribute owner a.name value
    | none => .error (.notAnElement owner)

/-- Changes the tree, if the change applies to it. -/
def change (f : Tree → Except TreeError Tree) : Edit Unit := do
  let tree ← (f (← get).tree).mapError OperationError.tree
  modify fun d => { d with tree }

def set (s : Session) (target value : String) : Edit OperationResult := do
  let node ← s.selectOne (← get).tree target
  let value ← s.substitute value
  if (← get).tree.stringValue node = value then return .alreadyApplied
  change fun t => assign t node value
  return .applied

/-- Attaches a node at its place relative to the anchor. -/
def place (t : Tree) (anchor node : NodeId) : Placement → Except TreeError Tree
  | .before => t.insertBefore anchor node
  | .after => t.insertAfter anchor node
  | .prepend => t.prependChild anchor node
  | .append => t.appendChild anchor node

/-- Adds an instance of a fragment, detached. -/
def instantiate (s : Session) (key : String) : Edit NodeId := do
  let f ← s.fragment key
  let d ← get
  let (made, ids) := f.instantiate s.tokens d.tree d.ids s.registry
  modify fun d => { d with ids }
  let made ← made.mapError OperationError.fragment
  modify fun d => { d with tree := made.tree }
  return made.root

/-- Adds the node to be inserted, detached. -/
def prepare (s : Session) : Payload → Edit NodeId
  | .fragment key => s.instantiate key
  | .text value => do
    let value ← s.substitute value
    let (tree, node) := (← get).tree.push (.text value)
    modify fun d => { d with tree }
    return node

def insert (s : Session) (target anchor : String) (payload : Payload) (placement : Placement) :
    Edit OperationResult := do
  let nodes ← s.select (← get).tree target
  if !nodes.isEmpty then return .alreadyApplied
  let anchor ← s.selectElement (← get).tree anchor
  let node ← s.prepare payload
  change fun t => place t anchor node placement
  return .applied

/-- Takes a selected node out of the tree. -/
def removeNode (t : Tree) : NodeRef → Tree
  | .element id => t.detach id
  | .attribute owner index =>
    match t.attributeAt? owner index with
    | some a => (t.removeAttribute owner a.name.localName a.name.namespaceUri).1
    | none => t

def remove (s : Session) (target : String) : Edit OperationResult := do
  let nodes ← s.select (← get).tree target
  if nodes.isEmpty then return .alreadyApplied
  modify fun d => { d with tree := nodes.foldl removeNode d.tree }
  return .applied

def ensurePath (s : Session) (target anchor fragment : String) (placement : Placement) :
    Edit OperationResult := do
  let nodes ← s.select (← get).tree target
  if !nodes.isEmpty then return .alreadyApplied
  let anchor ← s.selectElement (← get).tree anchor
  let node ← s.instantiate fragment
  change fun t => place t anchor node placement
  let reached ← s.select (← get).tree target
  if reached.isEmpty then
    modify fun d => { d with tree := d.tree.detach node }
    throw (.ensureFailed target fragment)
  return .applied

def ensureAttr (s : Session) (target attr value : String) : Edit OperationResult := do
  let id ← s.selectElement (← get).tree target
  match s.registry.attribute? attr with
  | none => throw (.unknownRef "attributes" attr)
  | some name =>
    let value ← s.substitute value
    let current := ((← get).tree.element? id).bind fun e =>
      e.attribute? name.localName name.namespaceUri
    if current.map Attribute.value = some value then return .alreadyApplied
    change fun t => t.setAttribute id name value
    return .applied

variable {P : Type} [Package P]

/-- Creates the part if the package lacks it. -/
def ensurePart (s : Session) (package : P) (part fragment : String) :
    Except OperationError OperationResult × P :=
  match s.registry.part? part with
  | none => (.error (.unknownRef "parts" part), package)
  | some spec =>
    if Package.hasPart package spec.name then (.ok .alreadyApplied, package)
    else
      match s.fragment fragment with
      | .error e => (.error e, package)
      | .ok f =>
        match f.instantiateDocument s.tokens s.registry with
        | .error e => (.error (.fragment e), package)
        | .ok body =>
          match Package.createPart package spec body with
          | (.ok _, package) => (.ok .applied, package)
          | (.error e, package) => (.error (.part e), package)

/-- Acts on the tree and the allocator of a workspace. -/
def edit (w : Workspace P) (action : Edit OperationResult) :
    Except OperationError OperationResult × Workspace P :=
  let (result, d) := action.run.run ⟨w.tree, w.ids⟩
  (result, { w with tree := d.tree, ids := d.ids })

/-- Carries out an operation. What it has done before it fails stays done. -/
def execute (s : Session) (w : Workspace P) :
    Operation → Except OperationError OperationResult × Workspace P
  | .set target value => edit w (s.set target value)
  | .insert target anchor payload placement => edit w (s.insert target anchor payload placement)
  | .remove target => edit w (s.remove target)
  | .ensurePath target anchor fragment placement =>
    edit w (s.ensurePath target anchor fragment placement)
  | .ensurePart part fragment =>
    let (result, package) := s.ensurePart w.package part fragment
    (result, { w with package })
  | .ensureAttr target attr value => edit w (s.ensureAttr target attr value)

/-- What remains of a failed operation: tree and allocator are those saved before it. No tree is
saved for `ensurePart`, which acts on the package only. -/
def rollback (kind : OperationKind) (saved left : Workspace P) : Workspace P where
  tree := if kind = .ensurePart then left.tree else saved.tree
  ids := saved.ids
  package := left.package

/-- Whether the operation is skipped where its target is missing or ambiguous. -/
def isOptional (s : Session) (record : OperationRecord) : Bool :=
  record.optional || s.allOptional

/-- Carries out an operation of a patch. -/
def applyOperation (s : Session) (w : Workspace P) (index : Nat) (record : OperationRecord) :
    Except PatchError OperationResult × Workspace P :=
  match s.execute w record.operation with
  | (.ok result, w) => (.ok result, w)
  | (.error e, left) =>
    let w := rollback record.operation.kind w left
    if e.isMatchFailure && s.isOptional record then (.ok (.skipped e.message), w)
    else (.error ⟨index, record.operation.kind, record.operation.keys, e⟩, w)

def outcome (index : Nat) (record : OperationRecord) (result : OperationResult) :
    OperationOutcome :=
  ⟨index, record.operation.kind, record.operation.keys, result⟩

/-- Why the patch is not meant for the registry, if it is not. -/
def versionMismatch? (s : Session) (p : Patch) : Option String :=
  let version := s.registry.metadata.version
  let required := p.metadata.registryVersion
  match Version.satisfies version required with
  | .ok true => none
  | .ok false =>
    some ("registry version " ++ version.getD "(none)" ++ " does not satisfy registry_version " ++
      Text.trimmed (required.getD ""))
  | .error e => some e.message

/-- Carries out operations, the first of them numbered `index`, up to the first that fails. -/
def run (s : Session) (w : Workspace P) (index : Nat) :
    List OperationRecord → Except PatchError (List OperationOutcome) × Workspace P
  | [] => (.ok [], w)
  | record :: records =>
    match s.applyOperation w index record with
    | (.error e, w) => (.error e, w)
    | (.ok result, w) =>
      let (outcomes, w) := s.run w (index + 1) records
      (outcomes.map (outcome index record result :: ·), w)

def compacted (w : Workspace P) : Workspace P :=
  { w with tree := w.tree.compact.1 }

/-- Applies a patch. One that is not meant for the registry's version changes nothing. -/
def apply (s : Session) (w : Workspace P) (p : Patch) :
    Except PatchError PatchReport × Workspace P :=
  match s.versionMismatch? p with
  | some reason =>
    (.ok ⟨p.metadata.name, p.operations.zipIdx.map fun (record, index) =>
      outcome index record (.skippedVersion reason)⟩, w)
  | none =>
    let (outcomes, w) := s.run w 0 p.operations
    (outcomes.map (PatchReport.mk p.metadata.name), compacted w)

end Session

end PartPatch
