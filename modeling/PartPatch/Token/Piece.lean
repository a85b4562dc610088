import PartPatch.Text.Basic

/-!
# Token placeholders in values

A value may hold placeholders `{{name}}`, blanks around the name being ignored. Values are cut at
the first opening mark and the first closing mark after it; an opening mark that is never closed is
literal text, and so is all that follows it. What a token resolves to is inserted as it is.
-/

namespace PartPatch.Token

set_option autoImplicit false

/-- What supplies the values of tokens. -/
abbrev Resolver := String → Option String

inductive Piece where
  | literal (text : String)
  | token (name : String)
deriving DecidableEq, Repr

def openMark : List Char := ['\x7b', '\x7b']

def closeMark : List Char := ['\x7d', '\x7d']

/-- Cuts the text around its first placeholder: what precedes it, what stands between its marks,
and what follows. -/
def cutPlaceholder? (s : List Char) : Option (List Char × List Char × List Char) :=
  match Text.cut? openMark s with
  | none => none
  | some (before, opened) =>
    match Text.cut? closeMark opened with
    | none => none
    | some (inner, rest) => some (before, inner, rest)

theorem append_of_cutPlaceholder? {s before inner rest : List Char}
    (h : cutPlaceholder? s = some (before, inner, rest)) :
    s = before ++ openMark ++ inner ++ closeMark ++ rest := by
  unfold cutPlaceholder? at h
  split at h
  · simp at h
  · next b o ho =>
    split at h
    · simp at h
    · next i r hr =>
      simp only [Option.some.injEq, Prod.mk.injEq] at h
      obtain ⟨rfl, rfl, rfl⟩ := h
      rw [Text.append_of_cut? ho, Text.append_of_cut? hr]
      simp

theorem length_of_cutPlaceholder? {s before inner rest : List Char}
    (h : cutPlaceholder? s = some (before, inner, rest)) : rest.length < s.length := by
  rw [append_of_cutPlaceholder? h]
  simp [openMark]
  omega

def literalPiece (s : List Char) : List Piece :=
  if s = [] then [] else [.literal (String.ofList s)]

def piecesOf (s : List Char) : List Piece :=
  match h : cutPlaceholder? s with
  | none => literalPiece s
  | some (before, inner, rest) =>
    have := length_of_cutPlaceholder? h
    literalPiece before ++ .token (String.ofList (Text.trim inner)) :: piecesOf rest
termination_by s.length

def pieces (value : String) : List Piece :=
  piecesOf value.toList

def Piece.isToken : Piece → Bool
  | .token _ => true
  | .literal _ => false

/-- Whether the value holds a placeholder. -/
def isTokenShaped (value : String) : Bool :=
  (pieces value).any Piece.isToken

/-- A token without a value. -/
structure Unresolved where
  token : String
deriving DecidableEq, Repr

def Unresolved.message (e : Unresolved) : String :=
  "unresolved token '" ++ e.token ++ "'"

def Piece.resolve (tokens : Resolver) : Piece → Except Unresolved String
  | .literal text => .ok text
  | .token name =>
    match tokens name with
    | some value => .ok value
    | none => .error ⟨name⟩

/-- The value with each placeholder replaced, or its first token that has no value. -/
def substitute (value : String) (tokens : Resolver) : Except Unresolved String :=
  match (pieces value).mapM (Piece.resolve tokens) with
  | .ok parts => .ok (String.join parts)
  | .error e => .error e

end PartPatch.Token
