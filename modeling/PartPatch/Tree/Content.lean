import PartPatch.Tree.Basic

/-!
# The content of a tree

What a document holds, free of node names: an ordered tree of elements, texts and comments. Two
trees are *alike* if their headers and the contents of their documents agree, whatever their arrays
look like and whatever is detached.
-/

namespace PartPatch

set_option autoImplicit false

inductive Content where
  | element (element : Element) (children : List Content)
  | text (text : String)
  | comment (text : String)
deriving Repr

namespace Content

mutual

def same : Content → Content → Bool
  | .element e cs, .element f ds => e == f && sameAll cs ds
  | .text a, .text b => a == b
  | .comment a, .comment b => a == b
  | _, _ => false

def sameAll : List Content → List Content → Bool
  | [], [] => true
  | c :: cs, d :: ds => same c d && sameAll cs ds
  | _, _ => false

end

mutual

theorem eq_of_same : ∀ {c d : Content}, same c d = true → c = d
  | .element _ cs, .element _ ds, h => by
    simp only [same, Bool.and_eq_true, beq_iff_eq] at h
    rw [h.1, eq_of_sameAll h.2]
  | .text _, .text _, h => by simpa [same] using h
  | .comment _, .comment _, h => by simpa [same] using h
  | .element _ _, .text _, h => by simp [same] at h
  | .element _ _, .comment _, h => by simp [same] at h
  | .text _, .element _ _, h => by simp [same] at h
  | .text _, .comment _, h => by simp [same] at h
  | .comment _, .element _ _, h => by simp [same] at h
  | .comment _, .text _, h => by simp [same] at h

theorem eq_of_sameAll : ∀ {cs ds : List Content}, sameAll cs ds = true → cs = ds
  | [], [], _ => rfl
  | c :: cs, d :: ds, h => by
    simp only [sameAll, Bool.and_eq_true] at h
    rw [eq_of_same h.1, eq_of_sameAll h.2]
  | [], _ :: _, h => by simp [sameAll] at h
  | _ :: _, [], h => by simp [sameAll] at h

end

mutual

theorem same_self : ∀ c : Content, same c c = true
  | .element _ cs => by simp [same, sameAll_self cs]
  | .text _ => by simp [same]
  | .comment _ => by simp [same]

theorem sameAll_self : ∀ cs : List Content, sameAll cs cs = true
  | [] => rfl
  | c :: cs => by simp [sameAll, same_self c, sameAll_self cs]

end

instance : DecidableEq Content := fun c d =>
  if h : same c d = true then isTrue (eq_of_same h)
  else isFalse fun e => h (e ▸ same_self c)

mutual

/-- The texts inside, joined; comments do not count. -/
def textOf : Content → String
  | .element _ children => textOfAll children
  | .text s => s
  | .comment _ => ""

def textOfAll : List Content → String
  | [] => ""
  | c :: cs => textOf c ++ textOfAll cs

end

end Content

namespace Tree

/-- What stands at the node, looking at most `fuel` levels down; nothing for the document node,
which is below no other. -/
def contentUpTo (t : Tree) : Nat → NodeId → List Content
  | 0, _ => []
  | fuel + 1, id =>
    match t.kind? id with
    | some (.element e) => [.element e ((t.children id).flatMap (t.contentUpTo fuel))]
    | some (.text text) => [.text text]
    | some (.comment text) => [.comment text]
    | _ => []

/-- What stands below the node. No node of a forest has more levels below it than there are
nodes. -/
def contentBelow (t : Tree) (id : NodeId) : List Content :=
  (t.children id).flatMap (t.contentUpTo t.size)

/-- What the document holds. -/
def content (t : Tree) : List Content :=
  t.contentBelow documentId

/-- All texts at and below the node, joined. -/
def text (t : Tree) (id : NodeId) : String :=
  match t.kind? id with
  | some (.text text) => text
  | some (.comment _) => ""
  | _ => Content.textOfAll (t.contentBelow id)

/-- The documents are equal in header and content. -/
def Alike (t u : Tree) : Prop :=
  t.header = u.header ∧ t.content = u.content

instance (t u : Tree) : Decidable (t.Alike u) :=
  inferInstanceAs (Decidable (_ ∧ _))

end Tree

end PartPatch
