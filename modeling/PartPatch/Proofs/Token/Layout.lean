import PartPatch.Proofs.Fragment.Placeholder

/-!
# The placeholders of a text

A text is a row of literals and placeholders in exactly one way in which every opening mark is the
first one of what is left, every closing mark the first one behind it, and no mark that opens in the
last literal is closed there. The pieces of a value are these literals and the names between the
marks. Substitution puts values in the places of the placeholders, changes nothing else, and does
not look at what it has put there.
-/

namespace PartPatch.Token

set_option autoImplicit false

/-- A row of literals and placeholders; `inner` is what stands between the marks. -/
inductive Layout where
  | literal (text : List Char)
  | placeholder (before inner : List Char) (rest : Layout)

namespace Layout

def text : Layout → List Char
  | .literal s => s
  | .placeholder before inner rest => before ++ openMark ++ inner ++ closeMark ++ rest.text

/-- Every mark of a placeholder is the first one possible, and there is no placeholder in the last
literal. -/
def Leftmost : Layout → Prop
  | .literal s => ∀ opened closed, openMark <+: s.drop opened → opened + 2 ≤ closed →
      ¬ closeMark <+: s.drop closed
  | .placeholder before inner rest =>
    Text.FirstAt openMark (before ++ openMark ++ inner ++ closeMark ++ rest.text) before.length ∧
      Text.FirstAt closeMark (inner ++ closeMark ++ rest.text) inner.length ∧ rest.Leftmost

/-- What stands between the marks, from left to right. -/
def inners : Layout → List (List Char)
  | .literal _ => []
  | .placeholder _ inner rest => inner :: rest.inners

def names (d : Layout) : List String :=
  d.inners.map fun inner => String.ofList (Text.trim inner)

/-- Literals that are not empty, and names. -/
def pieces : Layout → List Piece
  | .literal s => literalPiece s
  | .placeholder before inner rest =>
    literalPiece before ++ .token (String.ofList (Text.trim inner)) :: rest.pieces

/-- The text with a value in the place of every placeholder. -/
def fill (value : String → String) : Layout → List Char
  | .literal s => s
  | .placeholder before inner rest =>
    before ++ (value (String.ofList (Text.trim inner))).toList ++ rest.fill value

end Layout

/-- The name between marks. -/
def marked (name : String) : String :=
  String.ofList (openMark ++ name.toList ++ closeMark)

variable {s before inner rest : List Char} {d d' : Layout} {tokens : Resolver}

/-! ## Exactly one layout -/

theorem cutPlaceholder?_eq_some_iff : cutPlaceholder? s = some (before, inner, rest) ↔
    s = before ++ openMark ++ inner ++ closeMark ++ rest ∧
      Text.FirstAt openMark s before.length ∧
      Text.FirstAt closeMark (inner ++ closeMark ++ rest) inner.length := by
  have hopen : openMark ≠ [] := List.cons_ne_nil _ _
  have hclose : closeMark ≠ [] := List.cons_ne_nil _ _
  rw [cutPlaceholder?]
  constructor
  · intro h
    split at h
    · cases h
    · next b opened hopened =>
      obtain ⟨whole, first⟩ := (Text.cut?_eq_some_iff hopen).1 hopened
      split at h
      · cases h
      · next i r hclosed =>
        cases h
        obtain ⟨rfl, next⟩ := (Text.cut?_eq_some_iff hclose).1 hclosed
        refine ⟨?_, first, next⟩
        rw [whole]
        simp only [List.append_assoc]
  · rintro ⟨whole, first, next⟩
    have hopened : Text.cut? openMark s = some (before, inner ++ closeMark ++ rest) := by
      refine (Text.cut?_eq_some_iff hopen).2 ⟨?_, first⟩
      rw [whole]
      simp only [List.append_assoc]
    have hclosed : Text.cut? closeMark (inner ++ closeMark ++ rest) = some (inner, rest) :=
      (Text.cut?_eq_some_iff hclose).2 ⟨rfl, next⟩
    rw [hopened]
    dsimp only
    rw [hclosed]

/-- There is no placeholder where nothing is closed behind an opening mark. -/
theorem cutPlaceholder?_eq_none_iff :
    cutPlaceholder? s = none ↔ (Layout.literal s).Leftmost := by
  have hopen : openMark ≠ [] := List.cons_ne_nil _ _
  have hclose : closeMark ≠ [] := List.cons_ne_nil _ _
  constructor
  · intro h opened closed hopened hle hclosed
    rw [cutPlaceholder?] at h
    split at h
    · next hnone =>
      exact (Text.cut?_eq_none_iff hopen).1 hnone (Text.infix_iff_drop.2 ⟨opened, hopened⟩)
    · next b o hsome =>
      obtain ⟨whole, _, before_first⟩ := (Text.cut?_eq_some_iff hopen).1 hsome
      split at h
      · next hnone =>
        -- the first opening mark stands no later than this one, so the closing mark is behind it
        have hfirst : b.length ≤ opened := by
          by_contra hlt
          exact before_first opened (Nat.lt_of_not_le hlt) hopened
        have hdrop : s.drop closed = o.drop (closed - (b.length + 2)) := by
          have hlength : (b ++ openMark).length = b.length + 2 := List.length_append
          rw [whole, List.drop_append, List.drop_of_length_le (by omega), hlength, List.nil_append]
        rw [hdrop] at hclosed
        exact (Text.cut?_eq_none_iff hclose).1 hnone (Text.infix_iff_drop.2 ⟨_, hclosed⟩)
      · cases h
  · intro h
    cases hcut : cutPlaceholder? s with
    | none => rfl
    | some cut =>
      obtain ⟨before, inner, rest⟩ := cut
      obtain ⟨whole, ⟨hopened, _⟩, hclosed, _⟩ := cutPlaceholder?_eq_some_iff.1 hcut
      refine absurd ?_ (h before.length (before.length + 2 + inner.length) hopened (by omega))
      have hlength : (before ++ openMark).length = before.length + 2 := List.length_append
      rw [whole, List.append_assoc, List.append_assoc, ← List.append_assoc inner, ← hlength,
        List.drop_length_add_append]
      exact hclosed

theorem cutPlaceholder?_text {below : Layout}
    (h : (Layout.placeholder before inner below).Leftmost) :
    cutPlaceholder? (Layout.placeholder before inner below).text =
      some (before, inner, below.text) :=
  cutPlaceholder?_eq_some_iff.2 ⟨rfl, h.1, h.2.1⟩

theorem exists_leftmost (s : List Char) : ∃ d : Layout, d.text = s ∧ d.Leftmost := by
  induction hs : s.length using Nat.strong_induction_on generalizing s with
  | _ n ih =>
    cases hcut : cutPlaceholder? s with
    | none => exact ⟨.literal s, rfl, cutPlaceholder?_eq_none_iff.1 hcut⟩
    | some cut =>
      obtain ⟨before, inner, rest⟩ := cut
      obtain ⟨below, rfl, hbelow⟩ := ih rest.length (hs ▸ length_of_cutPlaceholder? hcut) rest rfl
      obtain ⟨rfl, first, next⟩ := cutPlaceholder?_eq_some_iff.1 hcut
      exact ⟨.placeholder before inner below, rfl, first, next, hbelow⟩

theorem Layout.Leftmost.unique (h : d.Leftmost) (h' : d'.Leftmost) (e : d'.text = d.text) :
    d' = d := by
  induction d generalizing d' with
  | literal s =>
    have hnone := cutPlaceholder?_eq_none_iff.2 h
    cases d' with
    | literal s' => exact congrArg Layout.literal e
    | placeholder before' inner' below' =>
      rw [← show (Layout.placeholder before' inner' below').text = s from e,
        cutPlaceholder?_text h'] at hnone
      cases hnone
  | placeholder before inner below ih =>
    have hsome := cutPlaceholder?_text h
    rw [← e] at hsome
    cases d' with
    | literal s' => cases hsome.symm.trans (cutPlaceholder?_eq_none_iff.2 h')
    | placeholder before' inner' below' =>
      rw [cutPlaceholder?_text h'] at hsome
      simp only [Option.some.injEq, Prod.mk.injEq] at hsome
      obtain ⟨rfl, rfl, hbelow⟩ := hsome
      rw [ih h.2.2 h'.2.2 hbelow]

theorem Layout.Leftmost.piecesOf_text (h : d.Leftmost) : piecesOf d.text = d.pieces := by
  induction d with
  | literal s =>
    rw [← piecesAfter_nil, piecesAfter, Layout.text, cutPlaceholder?_eq_none_iff.2 h]
    rfl
  | placeholder before inner below ih =>
    rw [← piecesAfter_nil, piecesAfter, cutPlaceholder?_text h]
    dsimp only
    rw [ih h.2.2]
    rfl

/-! ## Substitution -/

theorem tokens_literalPiece (s : List Char) :
    ((literalPiece s).map Piece.segment).filterMap Segment.token? = [] := by
  rw [literalPiece]
  split
  · rfl
  · rfl

theorem tokens_pieces (d : Layout) :
    (d.pieces.map Piece.segment).filterMap Segment.token? = d.names := by
  induction d with
  | literal s => exact tokens_literalPiece s
  | placeholder before inner below ih =>
    rw [Layout.pieces, List.map_append, List.filterMap_append, tokens_literalPiece, List.map_cons,
      List.nil_append, List.filterMap_cons_some (f := Segment.token?) rfl, ih]
    rfl

theorem firstUnresolved?_pieces (tokens : Resolver) (d : Layout) :
    firstUnresolved? tokens d.pieces = d.names.find? fun name => (tokens name).isNone := by
  rw [firstUnresolved?, tokens_pieces]

theorem isSome_firstUnresolved?_iff :
    (firstUnresolved? tokens d.pieces).isSome = true ↔ ∃ name ∈ d.names, tokens name = none := by
  rw [firstUnresolved?_pieces, List.find?_isSome]
  simp only [Option.isNone_iff_eq_none]

theorem firstUnresolved?_eq_some_iff {name : String} :
    firstUnresolved? tokens d.pieces = some name ↔ tokens name = none ∧
      ∃ before after, d.names = before ++ name :: after ∧ ∀ n ∈ before, tokens n ≠ none := by
  rw [firstUnresolved?_pieces, List.find?_eq_some_iff_append, Option.isNone_iff_eq_none]
  simp only [Bool.not_eq_true', Option.isNone_eq_false_iff, Option.isSome_iff_ne_none]

theorem mapM_literalPiece (tokens : Resolver) (s : List Char) : ∃ parts,
    (literalPiece s).mapM (Piece.resolve tokens) = .ok parts ∧
      String.join parts = String.ofList s := by
  rw [literalPiece]
  split
  · next h =>
    subst h
    exact ⟨[], rfl, rfl⟩
  · exact ⟨[String.ofList s], rfl, by simp⟩

/-- Where all names have values, the pieces resolve to the filled layout. -/
theorem mapM_pieces {value : String → String} (h : ∀ n ∈ d.names, tokens n = some (value n)) :
    ∃ parts, d.pieces.mapM (Piece.resolve tokens) = .ok parts ∧
      String.join parts = String.ofList (d.fill value) := by
  induction d with
  | literal s => exact mapM_literalPiece tokens s
  | placeholder before inner below ih =>
    obtain ⟨front, hfront, joined⟩ := mapM_literalPiece tokens before
    obtain ⟨parts, hparts, joined'⟩ := ih fun n hn => h n (List.mem_cons_of_mem _ hn)
    let name := String.ofList (Text.trim inner)
    have hname : (Piece.token name).resolve tokens = .ok (value name) := by
      rw [Piece.resolve, h name List.mem_cons_self]
    refine ⟨front ++ value name :: parts, ?_, ?_⟩
    · rw [Layout.pieces, List.mapM_append, hfront, List.mapM_cons, hname, hparts]
      rfl
    · rw [String.join_append, String.join_cons, joined, joined', Layout.fill]
      simp [name]

theorem fill_marked (h : ∀ inner ∈ d.inners, Text.trim inner = inner) :
    d.fill marked = d.text := by
  induction d with
  | literal s => rfl
  | placeholder before inner below ih =>
    rw [Layout.fill, Layout.text, ih fun i hi => h i (List.mem_cons_of_mem inner hi),
      h inner List.mem_cons_self, marked]
    simp

/-- A value has one leftmost layout. Its pieces are those of the layout; substitution fails for the
leftmost name that has no value, if there is one, and otherwise fills the layout. -/
theorem leftmost_layout (value : String) :
    (∃! d : Layout, d.text = value.toList ∧ d.Leftmost) ∧
    ∀ d : Layout, d.text = value.toList → d.Leftmost →
      pieces value = d.pieces ∧
      (∀ tokens : Resolver,
        ((∃ e, substitute value tokens = .error e) ↔ ∃ name ∈ d.names, tokens name = none) ∧
        (∀ e, substitute value tokens = .error e ↔ tokens e.token = none ∧
          ∃ before after, d.names = before ++ e.token :: after ∧ ∀ n ∈ before, tokens n ≠ none) ∧
        ∀ resolved : String → String, (∀ name ∈ d.names, tokens name = some (resolved name)) →
          substitute value tokens = .ok (String.ofList (d.fill resolved))) ∧
      ((∀ inner ∈ d.inners, Text.trim inner = inner) →
        substitute value (fun name => some (marked name)) = .ok value) := by
  constructor
  · obtain ⟨d, htext, h⟩ := exists_leftmost value.toList
    exact ⟨d, ⟨htext, h⟩, fun d' ⟨htext', h'⟩ => h.unique h' (htext'.trans htext.symm)⟩
  · intro d htext h
    have hpieces : pieces value = d.pieces := by
      rw [pieces, ← htext, h.piecesOf_text]
    have error : ∀ tokens e, substitute value tokens = .error e ↔
        firstUnresolved? tokens d.pieces = some e.token := by
      intro tokens e
      rw [substitute_eq_error_iff, hpieces]
    have filled : ∀ (tokens : Resolver) (resolved : String → String),
        (∀ name ∈ d.names, tokens name = some (resolved name)) →
          substitute value tokens = .ok (String.ofList (d.fill resolved)) := by
      intro tokens resolved hnames
      obtain ⟨parts, hparts, joined⟩ := mapM_pieces hnames
      rw [substitute, hpieces, hparts]
      dsimp only
      rw [joined]
    refine ⟨hpieces, ?_, ?_⟩
    · intro tokens
      refine ⟨?_, ?_, filled tokens⟩
      · rw [← isSome_firstUnresolved?_iff, Option.isSome_iff_exists]
        constructor
        · rintro ⟨e, he⟩
          exact ⟨e.token, (error tokens e).1 he⟩
        · rintro ⟨name, hname⟩
          exact ⟨⟨name⟩, (error tokens ⟨name⟩).2 hname⟩
      · intro e
        rw [error, firstUnresolved?_eq_some_iff]
    · intro tight
      rw [filled _ marked fun _ _ => rfl, fill_marked tight, htext, String.ofList_toList]

/-- Marks that overlap and marks between marks; the last one is not closed. -/
def crowded : String :=
  "\x7b\x7b\x7bx\x7d\x7d\x7d\x7b\x7ba\x7b\x7bb\x7d\x7d\x7b\x7bc\x7d"

def crowdedLayout : Layout :=
  .placeholder [] ['\x7b', 'x'] (.placeholder ['\x7d'] ['a', '\x7b', '\x7b', 'b']
    (.literal ['\x7b', '\x7b', 'c', '\x7d']))

theorem leftmost_crowdedLayout : crowdedLayout.Leftmost := by
  have first : cutPlaceholder? crowded.toList = some ([], ['\x7b', 'x'],
      ['\x7d', '\x7b', '\x7b', 'a', '\x7b', '\x7b', 'b', '\x7d', '\x7d', '\x7b', '\x7b', 'c',
        '\x7d']) := by decide
  have second : cutPlaceholder? ['\x7d', '\x7b', '\x7b', 'a', '\x7b', '\x7b', 'b', '\x7d', '\x7d',
      '\x7b', '\x7b', 'c', '\x7d'] = some (['\x7d'], ['a', '\x7b', '\x7b', 'b'],
        ['\x7b', '\x7b', 'c', '\x7d']) := by decide
  have none : cutPlaceholder? ['\x7b', '\x7b', 'c', '\x7d'] = none := by decide
  obtain ⟨_, opens, closes⟩ := cutPlaceholder?_eq_some_iff.1 first
  obtain ⟨_, opens', closes'⟩ := cutPlaceholder?_eq_some_iff.1 second
  exact ⟨opens, closes, opens', closes', cutPlaceholder?_eq_none_iff.1 none⟩

/-- A value that looks like a placeholder is not substituted again. -/
theorem leftmost_layout_crowded :
    crowdedLayout.text = crowded.toList ∧ crowdedLayout.Leftmost ∧
    pieces crowded = [.token "\x7bx", .literal "\x7d", .token "a\x7b\x7bb",
      .literal "\x7b\x7bc\x7d"] ∧
    substitute crowded (fun name => if name = "\x7bx" then some (marked "y") else none) =
      .error ⟨"a\x7b\x7bb"⟩ ∧
    substitute crowded (fun _ => some (marked "y")) =
      .ok "\x7b\x7by\x7d\x7d\x7d\x7b\x7by\x7d\x7d\x7b\x7bc\x7d" ∧
    substitute crowded (fun name => some (marked name)) = .ok crowded := by
  have htext : crowdedLayout.text = crowded.toList := by decide
  obtain ⟨_, spec⟩ := leftmost_layout crowded
  obtain ⟨hpieces, hsubstitute, again⟩ := spec crowdedLayout htext leftmost_crowdedLayout
  obtain ⟨_, fails, _⟩ :=
    hsubstitute fun name => if name = "\x7bx" then some (marked "y") else none
  obtain ⟨_, _, fills⟩ := hsubstitute fun _ => some (marked "y")
  refine ⟨htext, leftmost_crowdedLayout, hpieces, ?_, ?_, again (by decide)⟩
  · refine (fails _).2 ⟨by decide, ["\x7bx"], [], by decide, ?_⟩
    decide
  · exact fills (fun _ => marked "y") fun _ _ => rfl

end PartPatch.Token
