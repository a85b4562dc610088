import PartPatch.Proofs.Fragment.Rendering
import PartPatch.Proofs.Text.Cut

/-!
# Two readings of placeholders

The value of an operation is cut at its marks, from one placeholder to the next, and is left alone
from an opening mark on that is never closed. The text of a fragment is read character by character,
knows identifiers too, and goes on behind such a mark. Where no identifier can begin, both come to
the same pieces, so that text and value are rendered to the same string.
-/

namespace PartPatch

set_option autoImplicit false

/-! ## The first placeholder -/

namespace Token

variable {s t o inner rest pending : List Char} {c : Char}

theorem cutPlaceholder?_of_closed (h : Text.cut? closeMark o = some (inner, rest)) :
    cutPlaceholder? ('\x7b' :: '\x7b' :: o) = some ([], inner, rest) := by
  have opens : Text.cut? openMark ('\x7b' :: '\x7b' :: o) = some ([], o) := rfl
  rw [cutPlaceholder?, opens]
  dsimp only
  rw [h]

/-- Behind a mark that is never closed there is no other one that is closed. -/
theorem cutPlaceholder?_of_open (h : Text.cut? closeMark o = none) :
    cutPlaceholder? ('\x7b' :: '\x7b' :: o) = none ∧ cutPlaceholder? ('\x7b' :: o) = none := by
  have hmark : closeMark ≠ [] := List.cons_ne_nil _ _
  have never : ∀ opened, opened <:+ o → Text.cut? closeMark opened = none := by
    intro opened suffix
    rw [Text.cut?_eq_none_iff hmark] at h ⊢
    intro inside
    exact h (inside.trans suffix.isInfix)
  have opens : Text.cut? openMark ('\x7b' :: '\x7b' :: o) = some ([], o) := rfl
  constructor
  · rw [cutPlaceholder?, opens]
    dsimp only
    rw [h]
  · rw [cutPlaceholder?]
    split
    · rfl
    · next before opened hcut =>
      have whole := Text.append_of_cut? hcut
      have hlength := congrArg List.length whole
      simp only [openMark, List.length_cons, List.length_append, List.length_nil] at hlength
      have last : opened <:+ o := by
        refine List.suffix_of_suffix_length_le ⟨before ++ openMark, whole.symm⟩
          (List.suffix_cons _ _) ?_
        omega
      rw [never opened last]

/-- No placeholder begins with a character that does not begin an opening mark. -/
theorem cutPlaceholder?_cons (h : ¬ openMark <+: c :: t) :
    cutPlaceholder? (c :: t) =
      (cutPlaceholder? t).map fun (before, inner, rest) => (c :: before, inner, rest) := by
  rw [cutPlaceholder?, cutPlaceholder?, Text.cut?, Text.after?_eq_none_iff.2 h]
  dsimp only
  cases Text.cut? openMark t with
  | none => rfl
  | some opened =>
    obtain ⟨before, o⟩ := opened
    dsimp only [Option.map_some]
    cases Text.cut? closeMark o with
    | none => rfl
    | some closed => rfl

/-- The pieces of a text behind others that hold no placeholder. -/
def piecesAfter (pending s : List Char) : List Piece :=
  match cutPlaceholder? s with
  | none => literalPiece (pending ++ s)
  | some (before, inner, rest) =>
    literalPiece (pending ++ before) ++ .token (String.ofList (Text.trim inner)) :: piecesOf rest

theorem piecesAfter_nil (s : List Char) : piecesAfter [] s = piecesOf s := by
  rw [piecesAfter, piecesOf]
  split
  · next h =>
    split
    · rfl
    · next h' => cases h.symm.trans h'
  · next h =>
    split
    · next h' => cases h.symm.trans h'
    · next h' =>
      cases h.symm.trans h'
      rfl

theorem piecesAfter_cons (h : cutPlaceholder? (c :: t) =
      (cutPlaceholder? t).map fun (before, inner, rest) => (c :: before, inner, rest))
    (pending : List Char) : piecesAfter pending (c :: t) = piecesAfter (pending ++ [c]) t := by
  rw [piecesAfter, piecesAfter, h]
  cases cutPlaceholder? t with
  | none => simp
  | some cut => simp

theorem piecesAfter_of_begins (h : cutPlaceholder? s = some ([], inner, rest))
    (pending : List Char) : piecesAfter pending s =
      literalPiece pending ++ .token (String.ofList (Text.trim inner)) :: piecesOf rest := by
  rw [piecesAfter, h]
  dsimp only
  rw [List.append_nil]

/-- What stands in front of the first placeholder is no token. -/
theorem token_mem_piecesAfter_iff {name : String} (pending s : List Char) :
    .token name ∈ piecesAfter pending s ↔ .token name ∈ piecesOf s := by
  have literal : ∀ s, .token name ∉ literalPiece s := by
    intro s
    rw [literalPiece]
    split
    · simp
    · simp
  rw [← piecesAfter_nil s, piecesAfter, piecesAfter]
  cases cutPlaceholder? s with
  | none => simp [literal]
  | some cut => simp [literal]

def Piece.segment : Piece → Segment
  | .literal text => .literal text
  | .token name => .token name

end Token

/-! ## The readers -/

namespace TemplateText

open Token

variable {s t o inner rest : List Char} {c : Char}

/-- Every hash in front of an opening brace stands in front of an opening mark, so that no
identifier begins anywhere. -/
def HashesBeforeTokens (s : List Char) : Prop :=
  ∀ t ∈ s.tails, ['#', '\x7b'] <+: t → ['#', '\x7b', '\x7b'] <+: t

instance (s : List Char) : Decidable (HashesBeforeTokens s) :=
  inferInstanceAs (Decidable (∀ t ∈ s.tails, _))

theorem HashesBeforeTokens.suffix (h : HashesBeforeTokens s) (suffix : t <:+ s) :
    HashesBeforeTokens t := by
  intro r hr
  rw [List.mem_tails] at hr
  exact h r ((List.mem_tails _ _).2 (hr.trans suffix))

theorem readToken?_of_open (h : Text.cut? closeMark o = none) : readToken? o = none := by
  unfold readToken?
  split
  · rfl
  · next h' => cases h.symm.trans h'

theorem readToken?_of_closed (h : Text.cut? closeMark o = some (inner, rest)) :
    Text.trim inner = [] ∧ readToken? o = some (.error .emptyToken) ∨
      Text.trim inner ≠ [] ∧ ∃ hrest, readToken? o =
        some (.ok (.token (String.ofList (Text.trim inner)), ⟨rest, hrest⟩)) := by
  unfold readToken?
  split
  · next h' => cases h.symm.trans h'
  · next h' =>
    cases h.symm.trans h'
    split
    · next hempty => exact Or.inl ⟨hempty, rfl⟩
    · next hname =>
      have hlength := Text.length_of_cut? h'
      simp only [closeMark, List.length_cons, List.length_nil] at hlength
      exact Or.inr ⟨hname, by omega, rfl⟩

theorem readPlaceholder?_eq_none (h : HashesBeforeTokens s) (opens : ¬ openMark <+: s) :
    readPlaceholder? s = none := by
  unfold readPlaceholder?
  split
  · next o => exact absurd ⟨o, rfl⟩ opens
  · rfl
  · next o hne =>
    obtain ⟨r, hr⟩ := h _ ((List.mem_tails _ _).2 List.suffix_rfl) ⟨o, rfl⟩
    cases hr
    exact absurd rfl (hne r)
  · rfl

/-- Either a closed placeholder begins here, and is read, or the character is literal. -/
theorem readPlaceholder?_cases (h : HashesBeforeTokens (c :: t)) :
    (∃ inner rest, cutPlaceholder? (c :: t) = some ([], inner, rest) ∧
      (Text.trim inner = [] ∧ readPlaceholder? (c :: t) = some (.error .emptyToken) ∨
        Text.trim inner ≠ [] ∧ ∃ hrest, readPlaceholder? (c :: t) =
          some (.ok (.token (String.ofList (Text.trim inner)), ⟨rest, hrest⟩)))) ∨
      readPlaceholder? (c :: t) = none ∧ cutPlaceholder? (c :: t) =
        (cutPlaceholder? t).map fun (before, inner, rest) => (c :: before, inner, rest) := by
  by_cases opens : openMark <+: c :: t
  · obtain ⟨o, rfl, rfl⟩ : ∃ o, c = '\x7b' ∧ t = '\x7b' :: o := by
      obtain ⟨o, e⟩ := opens
      cases e
      exact ⟨o, rfl, rfl⟩
    cases hclose : Text.cut? closeMark o with
    | none =>
      obtain ⟨here, later⟩ := cutPlaceholder?_of_open hclose
      refine Or.inr ⟨?_, ?_⟩
      · rw [readPlaceholder?, readToken?_of_open hclose]
        rfl
      · rw [here, later]
        rfl
    | some closed =>
      obtain ⟨inner, rest⟩ := closed
      refine Or.inl ⟨inner, rest, cutPlaceholder?_of_closed hclose, ?_⟩
      rcases readToken?_of_closed hclose with ⟨hempty, hread⟩ | ⟨hname, _, hread⟩
      · refine Or.inl ⟨hempty, ?_⟩
        rw [readPlaceholder?, hread]
        rfl
      · refine Or.inr ⟨hname, ?_, ?_⟩
        · simp only [List.length_cons]
          omega
        · rw [readPlaceholder?, hread]
          rfl
  · exact Or.inr ⟨readPlaceholder?_eq_none h opens, cutPlaceholder?_cons opens⟩

theorem literalSegment_eq (pending : List Char) :
    literalSegment pending = (literalPiece pending.reverse).map Piece.segment := by
  rw [literalSegment, literalPiece]
  by_cases h : pending = []
  · simp [h]
  · simp [h, Piece.segment]

/-- The segments that the pieces make up, with literal text in front, unless a token has no
name. -/
def segmentsAfter (pending s : List Char) : Except Fault (List Segment) :=
  if .token "" ∈ piecesAfter pending s then .error .emptyToken
  else .ok ((piecesAfter pending s).map Piece.segment)

theorem segmentsAfter_of_unnamed (h : cutPlaceholder? s = some ([], inner, rest))
    (unnamed : Text.trim inner = []) (pending : List Char) :
    segmentsAfter pending s = .error .emptyToken := by
  rw [segmentsAfter, if_pos]
  rw [piecesAfter_of_begins h, unnamed]
  exact List.mem_append_right _ List.mem_cons_self

theorem segmentsAfter_of_named (h : cutPlaceholder? s = some ([], inner, rest))
    (named : Text.trim inner ≠ []) (pending : List Char) :
    segmentsAfter pending s = (segmentsAfter [] rest).map fun segments =>
      (literalPiece pending).map Piece.segment ++
        .token (String.ofList (Text.trim inner)) :: segments := by
  have other : Piece.token "" ≠ .token (String.ofList (Text.trim inner)) := by
    intro e
    exact named (String.ofList_eq_empty_iff.1 (Piece.token.inj e).symm)
  have same : .token "" ∈ piecesAfter pending s ↔ .token "" ∈ piecesAfter [] rest := by
    rw [token_mem_piecesAfter_iff, ← piecesAfter_nil, piecesAfter_of_begins h, piecesAfter_nil]
    change .token "" ∈ Piece.token _ :: piecesOf rest ↔ _
    rw [List.mem_cons, or_iff_right other]
  rw [segmentsAfter, segmentsAfter]
  by_cases empty : .token "" ∈ piecesAfter [] rest
  · rw [if_pos (same.2 empty), if_pos empty]
    rfl
  · rw [if_neg (fun hmem => empty (same.1 hmem)), if_neg empty, piecesAfter_of_begins h,
      List.map_append, piecesAfter_nil]
    rfl

/-- Character by character the pieces are found, with the pending literal in front. -/
theorem readSegments_eq (h : HashesBeforeTokens s) (pending : List Char) :
    readSegments pending s = segmentsAfter pending.reverse s := by
  induction hn : s.length using Nat.strong_induction_on generalizing s pending with
  | _ n ih =>
    cases s with
    | nil =>
      have pieces : piecesAfter pending.reverse [] = literalPiece pending.reverse := by
        change literalPiece (pending.reverse ++ []) = _
        rw [List.append_nil]
      have unnamed : .token "" ∉ literalPiece pending.reverse := by
        rw [← pieces, token_mem_piecesAfter_iff, ← piecesAfter_nil]
        exact List.not_mem_nil
      rw [readSegments, segmentsAfter, pieces, if_neg unnamed, literalSegment_eq]
    | cons c t =>
      rw [List.length_cons] at hn
      rw [readSegments]
      rcases readPlaceholder?_cases h with ⟨inner, rest, hcut, hread⟩ | ⟨hread, hcut⟩
      · rcases hread with ⟨unnamed, hread⟩ | ⟨named, hlt, hread⟩
        · rw [hread, segmentsAfter_of_unnamed hcut unnamed]
        · have hrest : HashesBeforeTokens rest := by
            apply h.suffix
            rw [append_of_cutPlaceholder? hcut]
            exact List.suffix_append _ _
          rw [List.length_cons] at hlt
          have later := ih rest.length (by omega) hrest [] rfl
          rw [hread, segmentsAfter_of_named hcut named]
          dsimp only
          rw [later, literalSegment_eq, List.reverse_nil]
          cases segmentsAfter [] rest with
          | error fault => rfl
          | ok segments => rfl
      · rw [hread]
        dsimp only
        rw [ih t.length (by omega) (h.suffix (List.suffix_cons c t)) (c :: pending) rfl,
          List.reverse_cons, segmentsAfter, segmentsAfter, piecesAfter_cons hcut]

theorem read_eq {input : String} (h : HashesBeforeTokens input.toList) :
    read input = if .token "" ∈ pieces input then .error ⟨input, .emptyToken⟩
      else .ok ⟨(pieces input).map Piece.segment⟩ := by
  have segments := readSegments_eq h []
  rw [List.reverse_nil, segmentsAfter, piecesAfter_nil] at segments
  rw [read, segments, pieces]
  by_cases empty : .token "" ∈ piecesOf input.toList
  · rw [if_pos empty, if_pos empty]
  · rw [if_neg empty, if_neg empty]

end TemplateText

/-! ## What is written -/

namespace Token

variable {tokens : Resolver} {value text : String}

/-- The first token among the pieces that has no value. -/
def firstUnresolved? (tokens : Resolver) (ps : List Piece) : Option String :=
  ((ps.map Piece.segment).filterMap Segment.token?).find? fun name => (tokens name).isNone

theorem resolve_cases (tokens : Resolver) (identifiers : List ((String × String) × String))
    (p : Piece) (ps : List Piece) :
    (∃ name, p.resolve tokens = .error ⟨name⟩ ∧ p.segment.meaning? tokens identifiers = none ∧
        firstUnresolved? tokens (p :: ps) = some name) ∨
      ∃ text, p.resolve tokens = .ok text ∧
        p.segment.meaning? tokens identifiers = some text ∧
        firstUnresolved? tokens (p :: ps) = firstUnresolved? tokens ps := by
  cases p with
  | literal text => exact Or.inr ⟨text, rfl, rfl, rfl⟩
  | token name =>
    have first : firstUnresolved? tokens (.token name :: ps) =
        if (tokens name).isNone then some name else firstUnresolved? tokens ps := by
      simp only [firstUnresolved?, List.map_cons, Piece.segment, List.filterMap_cons,
        Segment.token?, List.find?_cons]
      cases (tokens name).isNone with
      | true => rfl
      | false => rfl
    cases hname : tokens name with
    | none =>
      refine Or.inl ⟨name, ?_, hname, ?_⟩
      · rw [Piece.resolve, hname]
      · rw [first, hname]
        rfl
    | some text =>
      refine Or.inr ⟨text, ?_, hname, ?_⟩
      · rw [Piece.resolve, hname]
      · rw [first, hname]
        rfl

/-- Pieces are resolved up to the first token that has no value. If all have one, the pieces are
what they stand for in a template. -/
theorem mapM_resolve_cases (tokens : Resolver) (identifiers : List ((String × String) × String))
    (ps : List Piece) :
    (∃ name, firstUnresolved? tokens ps = some name ∧
        ps.mapM (Piece.resolve tokens) = .error ⟨name⟩ ∧
        (ps.map Piece.segment).mapM (Segment.meaning? tokens identifiers) = none) ∨
      firstUnresolved? tokens ps = none ∧ ∃ parts, ps.mapM (Piece.resolve tokens) = .ok parts ∧
        (ps.map Piece.segment).mapM (Segment.meaning? tokens identifiers) = some parts := by
  induction ps with
  | nil => exact Or.inr ⟨rfl, [], rfl, rfl⟩
  | cons p ps ih =>
    rw [List.mapM_cons, List.map_cons, List.mapM_cons]
    rcases resolve_cases tokens identifiers p ps with
      ⟨name, hresolve, hmeaning, hfirst⟩ | ⟨text, hresolve, hmeaning, hfirst⟩
    · rw [hresolve, hmeaning]
      exact Or.inl ⟨name, hfirst, rfl, rfl⟩
    · rw [hfirst, hresolve, hmeaning]
      rcases ih with ⟨name, hname, herror, hmeanings⟩ | ⟨hnone, parts, hparts, hmeanings⟩
      · rw [herror, hmeanings]
        exact Or.inl ⟨name, hname, rfl, rfl⟩
      · rw [hparts, hmeanings]
        exact Or.inr ⟨hnone, text :: parts, rfl, rfl⟩

/-- A value is substituted by what a template of the same pieces says. -/
theorem substitute_eq_ok_iff (identifiers : List ((String × String) × String)) :
    substitute value tokens = .ok text ↔
      TemplateText.Says tokens identifiers ⟨(pieces value).map Piece.segment⟩ text := by
  rw [substitute, TemplateText.Says]
  rcases mapM_resolve_cases tokens identifiers (pieces value) with
    ⟨name, _, herror, hmeanings⟩ | ⟨_, parts, hparts, hmeanings⟩
  · rw [herror, hmeanings]
    simp
  · rw [hparts, hmeanings]
    simp [eq_comm]

theorem substitute_eq_error_iff {e : Unresolved} :
    substitute value tokens = .error e ↔
      firstUnresolved? tokens (pieces value) = some e.token := by
  rw [substitute]
  rcases mapM_resolve_cases tokens [] (pieces value) with
    ⟨name, hname, herror, _⟩ | ⟨hnone, parts, hparts, _⟩
  · rw [herror, hname]
    cases e
    simp
  · rw [hparts, hnone]
    simp

end Token

namespace Fragment

variable {f : Fragment} {tokens : Token.Resolver} {input : String} {x : TemplateText}
  {t : Tree} {a : Allocator} {r : Registry}

section

variable (hx : x.segments = (Token.pieces input).map Token.Piece.segment)
include hx

/-- An instance writes for the text what is substituted for the value. -/
theorem substitute_of_instantiate (hmem : x ∈ f.root.texts) {made : Instance} {left : Allocator}
    (h : f.instantiate tokens t a r = (.ok made, left)) :
    Token.substitute input tokens = .ok (made.values.render x) := by
  rw [Token.substitute_eq_ok_iff made.values.identifiers, ← hx]
  exact says_of_instantiate h x hmem

variable (hf : f.root.texts = [x])
include hf

/-- A text without identifiers asks for none. -/
theorem identifiers_of_texts : f.identifiers = [] := by
  have none : x.segments.filterMap Segment.identifier? = [] := by
    rw [hx, List.filterMap_map, List.filterMap_eq_nil_iff]
    intro p _
    cases p with
    | literal text => rfl
    | token name => rfl
  rw [identifiers_eq, FragmentNode.segments_eq, hf, List.flatMap_singleton, none]
  rfl

theorem firstUnresolved?_of_texts (tokens : Token.Resolver) :
    f.firstUnresolved? tokens = Token.firstUnresolved? tokens (Token.pieces input) := by
  rw [firstUnresolved?, FragmentNode.segments_eq, hf, List.flatMap_singleton, hx]
  rfl

theorem instantiate_of_substitute_error {e : Token.Unresolved}
    (h : Token.substitute input tokens = .error e) :
    f.instantiate tokens t a r = (.error (.unresolvedToken e), a) := by
  have first := Token.substitute_eq_error_iff.1 h
  rw [← firstUnresolved?_of_texts hx hf] at first
  rcases resolveTokens_cases f tokens with ⟨name, hname, herror⟩ | ⟨hnone, _⟩
  · cases hname.symm.trans first
    exact instantiate_of_unresolved herror t a r
  · cases hnone.symm.trans first

/-- The instance is made and gives out no identifier. -/
theorem instantiate_of_substitute_ok (wf : t.WellFormed) {text : String}
    (h : Token.substitute input tokens = .ok text) :
    ∃ made, f.instantiate tokens t a r = (.ok made, a) ∧ made.values.render x = text ∧
      made.tree.Shows (fun _ written => written = text) f.root made.root := by
  rcases resolveTokens_cases f tokens with ⟨name, hname, _⟩ | ⟨_, resolved, hresolved, _⟩
  · rw [firstUnresolved?_of_texts hx hf] at hname
    cases h.symm.trans (Token.substitute_eq_error_iff (e := ⟨name⟩).2 hname)
  · obtain ⟨u, top, hplant, planted⟩ := Tree.plant_spec (f.root.render ⟨resolved, []⟩) wf
    have hmade : f.instantiate tokens t a r = (.ok ⟨u, top, ⟨resolved, []⟩⟩, a) := by
      rw [instantiate, values, hresolved, identifiers_of_texts hx hf]
      dsimp only [allocateAll, Except.map]
      rw [hplant]
    have hmem : x ∈ f.root.texts := by
      rw [hf]
      exact List.mem_cons_self
    have written := substitute_of_instantiate hx hmem hmade
    cases h.symm.trans written
    obtain ⟨_, content⟩ := Tree.content_of_plant _ wf hplant
    refine ⟨_, hmade, rfl, Tree.shows_of_contentAt planted.wellFormed f.root ?_ content⟩
    rw [hf]
    intro template htemplate
    rw [List.mem_singleton.1 htemplate]

end

end Fragment

/-! ## Both readings -/

namespace TemplateText

open Token

variable {input : String}

/-- Where every hash in front of a brace stands in front of an opening mark, a fragment text can be
read unless a token has no name, and its segments are the pieces that a value is cut into. Whatever
the tokens are, an instance of a fragment writes for the text what is substituted for the value; and
a fragment with this text alone has no instance if and only if the value cannot be substituted, for
the same token. -/
theorem read_agrees (h : HashesBeforeTokens input.toList) :
    ((∃ e, read input = .error e) ↔ .token "" ∈ pieces input) ∧
    ∀ x, read input = .ok x → x.segments = (pieces input).map Piece.segment ∧
      ∀ (tokens : Resolver) (f : Fragment) (t : Tree) (a : Allocator) (r : Registry),
        (x ∈ f.root.texts → ∀ made left, f.instantiate tokens t a r = (.ok made, left) →
          substitute input tokens = .ok (made.values.render x)) ∧
        (f.root.texts = [x] → t.WellFormed →
          (∀ e, substitute input tokens = .error e →
            f.instantiate tokens t a r = (.error (.unresolvedToken e), a)) ∧
          ∀ text, substitute input tokens = .ok text →
            ∃ made, f.instantiate tokens t a r = (.ok made, a) ∧ made.values.render x = text ∧
              made.tree.Shows (fun _ written => written = text) f.root made.root) := by
  have hread := read_eq h
  constructor
  · rw [hread]
    by_cases empty : .token "" ∈ pieces input
    · simp [empty]
    · simp [empty]
  · intro x hx
    have segments : x.segments = (pieces input).map Piece.segment := by
      rw [hread] at hx
      split at hx
      · cases hx
      · cases hx
        rfl
    refine ⟨segments, ?_⟩
    intro tokens f t a r
    constructor
    · intro hmem made left hmade
      exact Fragment.substitute_of_instantiate segments hmem hmade
    · intro hf wf
      exact ⟨fun e he => Fragment.instantiate_of_substitute_error segments hf he,
        fun text htext => Fragment.instantiate_of_substitute_ok segments hf wf htext⟩

/-- Two hashes, a token, and an opening mark that is not closed. -/
def hashed : String :=
  "##\x7b\x7b t \x7d\x7d\x7b\x7b"

def hashedText : TemplateText :=
  ⟨[.literal "##", .token "t", .literal "\x7b\x7b"]⟩

def hashedNote : Fragment where
  name := "note"
  root := .node (.plain "note") [] (some hashedText) []

/-- The second of two tokens has no name. -/
def unnamed : String :=
  "\x7b\x7bt\x7d\x7d\x7b\x7b \x7d\x7d"

theorem read_agrees_hashed :
    (∃ e, read unnamed = .error e) ∧ read hashed = .ok hashedText ∧
    hashedNote.instantiate (fun _ => none) .empty .empty Registry.items =
      (.error (.unresolvedToken ⟨"t"⟩), .empty) ∧
    ∃ made, hashedNote.instantiate some .empty .empty Registry.items = (.ok made, .empty) ∧
      made.tree.Shows (fun _ written => written = "##t\x7b\x7b") hashedNote.root made.root := by
  have noName : .token "" ∈ pieces unnamed := by
    have cut : pieces unnamed = [.token "t", .token ""] := by cbv
    rw [cut]
    exact List.mem_cons_of_mem _ List.mem_cons_self
  have hread : read hashed = .ok hashedText := by cbv
  have missing : substitute hashed (fun _ => none) = .error ⟨"t"⟩ := by cbv
  have found : substitute hashed some = .ok "##t\x7b\x7b" := by cbv
  have noHash : HashesBeforeTokens unnamed.toList := by decide
  have hashes : HashesBeforeTokens hashed.toList := by decide
  obtain ⟨fails, _⟩ := read_agrees noHash
  obtain ⟨_, reads⟩ := read_agrees hashes
  obtain ⟨_, agree⟩ := reads _ hread
  obtain ⟨_, without⟩ := agree (fun _ => none) hashedNote .empty .empty Registry.items
  obtain ⟨_, within⟩ := agree some hashedNote .empty .empty Registry.items
  obtain ⟨made, hmade, _, shown⟩ := (within rfl Tree.wellFormed_empty).2 _ found
  exact ⟨fails.2 noName, hread, (without rfl Tree.wellFormed_empty).1 _ missing, made, hmade, shown⟩

end TemplateText

end PartPatch
