import PartPatch.Proofs.Identifier.Allocator
import PartPatch.Proofs.Xml.Reader

/-!
# Runs of an allocator

An allocator serves requests for identifiers of any namespaces, each with the tree as it is then. A
request that fails changes nothing, so a namespace starts to count at its first success. What it is
given are consecutive numbers from there on, whatever other namespaces are given in between.
-/

namespace PartPatch

set_option autoImplicit false

namespace Allocator

/-- A call for the next identifier of a namespace. -/
structure Request where
  space : IdentifierSpace
  tree : Tree

/-- The answer to a request and the allocator after it. -/
def serve (a : Allocator) (r : Request) : Except Exhausted String × Allocator :=
  match a.allocate r.space r.tree with
  | .ok (id, b) => (.ok id, b)
  | .error e => (.error e, a)

/-- The allocator after the requests. -/
def after (a : Allocator) (rs : List Request) : Allocator :=
  rs.foldl (fun a r => (a.serve r).2) a

/-- What the requests in a namespace are given, in their order. -/
def given (a : Allocator) (name : String) : List Request → List String
  | [] => []
  | r :: rs =>
    match a.serve r with
    | (.ok id, b) => if r.space.name = name then id :: b.given name rs else b.given name rs
    | (.error _, b) => b.given name rs

/-- The next number is beyond the namespace or beyond 64 bits. -/
def Spent (a : Allocator) (r : Request) : Prop :=
  r.space.max < a.previous r.space r.tree + 1 ∨ Text.maxNumber < a.previous r.space r.tree + 1

/-- The identifiers have the consecutive numbers that follow the start, none of them too great, and
the counter stands at the last one. -/
structure Gapless (space : IdentifierSpace) (start count : Nat) (ids : List String)
    (left : Allocator) : Prop where
  ids : ids = (List.range' (start + 1) count).map space.format
  bounded : ∀ n ∈ List.range' (start + 1) count, n ≤ space.max ∧ n ≤ Text.maxNumber
  current : left.current? space.name = some (start + count)

/-- The request is the first of its namespace that is not in vain. -/
structure Opens (before : List Request) (r : Request) (start : Nat) : Prop where
  nothing : empty.given r.space.name before = []
  first : ((empty.after before).serve r).1 = .ok (r.space.format (start + 1))
  reads_le : ∀ n, r.space.Reads r.tree n → n ≤ start
  start_reads : start = 0 ∨ r.space.Reads r.tree start

variable {a b : Allocator} {r : Request} {rs before rest : List Request} {space : IdentifierSpace}
  {name : String} {start : Nat}

/-! ## One request -/

/-- A request fails and changes nothing, or it is given the next number and moves the counter of its
namespace on to it. -/
theorem serve_cases (a : Allocator) (r : Request) :
    (a.Spent r ∧ a.serve r = (.error ⟨r.space.name, r.space.max⟩, a)) ∨
      (¬ a.Spent r ∧ ∃ b,
        a.serve r = (.ok (r.space.format (a.previous r.space r.tree + 1)), b) ∧
        ∀ name, b.current? name = if name = r.space.name then
          some (a.previous r.space r.tree + 1) else a.current? name) := by
  by_cases room : a.previous r.space r.tree + 1 ≤ r.space.max ∧
      a.previous r.space r.tree + 1 ≤ Text.maxNumber
  · refine Or.inr ⟨?_, ⟨a.counters.insert r.space.name (a.previous r.space r.tree + 1)⟩, ?_, ?_⟩
    · rintro (beyond | beyond)
      · exact Nat.not_le.2 beyond room.1
      · exact Nat.not_le.2 beyond room.2
    · simp only [serve, allocate, if_pos room]
    · intro name
      exact Entries.find?_insert _ _ _ _
  · refine Or.inl ⟨?_, ?_⟩
    · rw [not_and_or, Nat.not_le, Nat.not_le] at room
      exact room
    · simp only [serve, allocate, if_neg room]

theorem bounded_of_not_spent (h : ¬ a.Spent r) :
    a.previous r.space r.tree + 1 ≤ r.space.max ∧
      a.previous r.space r.tree + 1 ≤ Text.maxNumber := by
  rw [Spent, not_or, Nat.not_lt, Nat.not_lt] at h
  exact h

theorem serve_error_iff : (∃ e, (a.serve r).1 = .error e) ↔ a.Spent r := by
  rcases serve_cases a r with ⟨spent, h⟩ | ⟨room, b, h, _⟩
  · rw [h]
    exact iff_of_true ⟨_, rfl⟩ spent
  · rw [h]
    refine iff_of_false ?_ room
    rintro ⟨e, he⟩
    cases he

theorem serve_of_error {e : Exhausted} (h : (a.serve r).1 = .error e) :
    a.serve r = (.error ⟨r.space.name, r.space.max⟩, a) := by
  rcases serve_cases a r with ⟨_, hs⟩ | ⟨_, b, hs, _⟩
  · exact hs
  · rw [hs] at h
    cases h

theorem after_cons (a : Allocator) (r : Request) (rs : List Request) :
    a.after (r :: rs) = (a.serve r).2.after rs := rfl

/-- A request passes a namespace by, or it is given the next number there. -/
theorem passes_or_counts (a : Allocator) (r : Request)
    (one : r.space.name = space.name → r.space = space) :
    ((a.serve r).2.current? space.name = a.current? space.name ∧
      ∀ rs, a.given space.name (r :: rs) = (a.serve r).2.given space.name rs) ∨
    (r.space = space ∧ ¬ a.Spent r ∧
      (a.serve r).1 = .ok (space.format (a.previous space r.tree + 1)) ∧
      (a.serve r).2.current? space.name = some (a.previous space r.tree + 1) ∧
      ∀ rs, a.given space.name (r :: rs) =
        space.format (a.previous space r.tree + 1) :: (a.serve r).2.given space.name rs) := by
  rcases serve_cases a r with ⟨_, h⟩ | ⟨room, b, h, counters⟩
  · refine Or.inl ⟨by rw [h], fun rs => ?_⟩
    rw [given, h]
  · by_cases hname : r.space.name = space.name
    · obtain rfl := one hname
      refine Or.inr ⟨rfl, room, by rw [h], ?_, fun rs => ?_⟩
      · rw [h, counters, if_pos rfl]
      · rw [given, h]
        exact if_pos rfl
    · refine Or.inl ⟨?_, fun rs => ?_⟩
      · rw [h, counters, if_neg (Ne.symm hname)]
      · rw [given, h]
        exact if_neg hname

/-! ## A whole run -/

theorem Gapless.cons {count : Nat} {ids : List String}
    (h : Gapless space (start + 1) count ids b)
    (bound : start + 1 ≤ space.max ∧ start + 1 ≤ Text.maxNumber) :
    Gapless space start (count + 1) (space.format (start + 1) :: ids) b where
  ids := by rw [h.ids, List.range'_succ, List.map_cons]
  bounded := by
    rw [List.range'_succ]
    exact List.forall_mem_cons.2 ⟨bound, h.bounded⟩
  current := by rw [h.current, Nat.add_assoc, Nat.add_comm 1]

/-- A namespace that has a counter is given the numbers that follow. -/
theorem gapless_of_current? (one : ∀ r ∈ rs, r.space.name = space.name → r.space = space)
    (h : a.current? space.name = some start) :
    ∃ count, Gapless space start count (a.given space.name rs) (a.after rs) := by
  induction rs generalizing a start with
  | nil =>
    refine ⟨0, rfl, ?_, h⟩
    intro n hn
    cases hn
  | cons r rs ih =>
    have others : ∀ q ∈ rs, q.space.name = space.name → q.space = space :=
      fun q hq => one q (List.mem_cons_of_mem r hq)
    rw [after_cons]
    rcases passes_or_counts a r (one r List.mem_cons_self) with
      ⟨current, given⟩ | ⟨rfl, room, _, current, given⟩
    · rw [given]
      exact ih others (current.trans h)
    · have bound := bounded_of_not_spent room
      rw [given]
      rw [previous_of_current? h] at bound current ⊢
      obtain ⟨count, counted⟩ := ih others current
      exact ⟨count + 1, counted.cons bound⟩

/-- A namespace that has no counter yet is given nothing, or it starts to count at its first
success. -/
theorem given_of_current?_eq_none (one : ∀ r ∈ rs, r.space.name = space.name → r.space = space)
    (h : a.current? space.name = none) :
    (a.given space.name rs = [] ∧ (a.after rs).current? space.name = none) ∨
      ∃ before r rest count, rs = before ++ r :: rest ∧ r.space = space ∧
        a.given space.name before = [] ∧
        ((a.after before).serve r).1 = .ok (space.format (space.greatestIn r.tree + 1)) ∧
        Gapless space (space.greatestIn r.tree) count (a.given space.name rs) (a.after rs) := by
  induction rs generalizing a with
  | nil => exact Or.inl ⟨rfl, h⟩
  | cons r rs ih =>
    have others : ∀ q ∈ rs, q.space.name = space.name → q.space = space :=
      fun q hq => one q (List.mem_cons_of_mem r hq)
    rw [after_cons]
    rcases passes_or_counts a r (one r List.mem_cons_self) with
      ⟨current, given⟩ | ⟨rfl, room, answer, current, given⟩
    · rw [given]
      refine (ih others (current.trans h)).imp_right ?_
      rintro ⟨before, q, rest, count, rfl, hspace, nothing, first, counted⟩
      exact ⟨r :: before, q, rest, count, rfl, hspace, (given before).trans nothing, first, counted⟩
    · have bound := bounded_of_not_spent room
      have start : a.previous r.space r.tree = r.space.greatestIn r.tree := by rw [previous, h]
      rw [given]
      rw [start] at bound answer current ⊢
      obtain ⟨count, counted⟩ := gapless_of_current? others current
      exact Or.inr ⟨[], r, rs, count + 1, rfl, rfl, rfl, answer, counted.cons bound⟩

theorem Gapless.nodup {count : Nat} {ids : List String} (h : Gapless space start count ids b) :
    ids.Nodup := by
  rw [h.ids]
  refine List.Nodup.map_on ?_ List.nodup_range'
  intro n hn m hm same
  by_contra differ
  exact IdentifierSpace.format_ne (h.bounded n hn).2 (h.bounded m hm).2 differ same

theorem opens_of_nothing (wf : r.tree.WellFormed)
    (nothing : empty.given r.space.name before = [])
    (first : ((empty.after before).serve r).1 =
      .ok (r.space.format (r.space.greatestIn r.tree + 1))) :
    Opens before r (r.space.greatestIn r.tree) where
  nothing := nothing
  first := first
  reads_le _ reads := IdentifierSpace.le_greatestIn_of_reads wf reads
  start_reads := IdentifierSpace.reads_greatestIn wf

/-- In any run each namespace is given consecutive numbers, which go on after all that its first
success reads in the tree. A request fails just if the next number is too great, and leaves no
traces. -/
theorem gapless_of_requests (rs : List Request) (wf : ∀ r ∈ rs, r.tree.WellFormed)
    (one : ∀ r ∈ rs, ∀ q ∈ rs, r.space.name = q.space.name → r.space = q.space) :
    (∀ q ∈ rs, (empty.given q.space.name rs).Nodup ∧
      ((empty.given q.space.name rs = [] ∧ (empty.after rs).current? q.space.name = none) ∨
        ∃ before r rest start count, rs = before ++ r :: rest ∧ r.space = q.space ∧
          Opens before r start ∧
          Gapless q.space start count (empty.given q.space.name rs) (empty.after rs))) ∧
    (∀ (a : Allocator) (r : Request), ((∃ e, (a.serve r).1 = .error e) ↔ a.Spent r) ∧
      ∀ e, (a.serve r).1 = .error e → a.serve r = (.error ⟨r.space.name, r.space.max⟩, a)) ∧
    ∀ (space : IdentifierSpace) (n : Nat), n ≤ Text.maxNumber →
      space.parse? (space.format n) = some n := by
  refine ⟨fun q hq => ?_, fun a r => ⟨serve_error_iff, fun _ => serve_of_error⟩,
    fun space n => IdentifierSpace.parse?_format⟩
  rcases given_of_current?_eq_none (a := empty) (fun r hr => one r hr q hq) rfl with
    ⟨nothing, unset⟩ | ⟨before, r, rest, count, hrs, hspace, nothing, first, counted⟩
  · refine ⟨?_, Or.inl ⟨nothing, unset⟩⟩
    rw [nothing]
    exact List.nodup_nil
  · have hr : r ∈ rs := by
      rw [hrs]
      exact List.mem_append_right before List.mem_cons_self
    rw [← hspace] at nothing first counted ⊢
    exact ⟨counted.nodup, Or.inr ⟨before, r, rest, _, count, hrs, rfl,
      opens_of_nothing (wf r hr) nothing first, counted⟩⟩

/-- Shapes have numbers up to 3; a link's number stands behind a digit. -/
def numberedShapes : Tree where
  nodes := #[⟨.document, none, [1]⟩,
    ⟨.element ⟨.plain "a", [⟨.plain "id", "2"⟩, ⟨.plain "link", "r14"⟩], []⟩, some 0, [2]⟩,
    ⟨.element ⟨.plain "b", [⟨.plain "id", "+01"⟩], []⟩, some 1, []⟩]
  header := none

def shapeRequest : Request := ⟨⟨"shape", [.plain "id"], "", 3⟩, numberedShapes⟩

def linkRequest : Request := ⟨⟨"link", [.plain "link"], "r1", 20⟩, numberedShapes⟩

/-- The last shape asks in vain. -/
def shapesAndLinks : List Request := [shapeRequest, linkRequest, shapeRequest, linkRequest]

theorem gapless_of_requests_shapesAndLinks :
    numberedShapes.WellFormed ∧ empty.given "shape" shapesAndLinks = ["3"] ∧
      empty.given "link" shapesAndLinks = ["r15", "r16"] ∧
      (∃ before r rest start count, shapesAndLinks = before ++ r :: rest ∧
        r.space = linkRequest.space ∧ Opens before r start ∧
        Gapless linkRequest.space start count ["r15", "r16"] (empty.after shapesAndLinks)) ∧
      (empty.after [shapeRequest, linkRequest]).Spent shapeRequest := by
  have read : Xml.read "<a id='2' link='r14'><b id='+01'/></a>" = .ok numberedShapes := by
    decide +kernel
  have wf := Xml.wellFormed_of_read read
  have shapes : empty.given "shape" shapesAndLinks = ["3"] := by decide
  have links : empty.given "link" shapesAndLinks = ["r15", "r16"] := by decide
  have wfs : ∀ r ∈ shapesAndLinks, r.tree.WellFormed := by
    simp only [shapesAndLinks, List.forall_mem_cons, shapeRequest, linkRequest, wf, true_and]
    exact List.forall_mem_nil _
  have one : ∀ r ∈ shapesAndLinks, ∀ q ∈ shapesAndLinks, r.space.name = q.space.name →
      r.space = q.space := by
    simp [shapesAndLinks, shapeRequest, linkRequest]
  obtain ⟨spaces, fails, _⟩ := gapless_of_requests shapesAndLinks wfs one
  refine ⟨wf, shapes, links, ?_, (fails _ _).1.1 ⟨⟨"shape", 3⟩, rfl⟩⟩
  rcases (spaces linkRequest (List.mem_cons_of_mem _ List.mem_cons_self)).2 with
    ⟨nothing, _⟩ | counted
  · cases links.symm.trans nothing
  · exact links ▸ counted

end Allocator

end PartPatch
