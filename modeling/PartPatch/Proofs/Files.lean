import Mathlib.Data.List.Induction
import Mathlib.Logic.Function.Basic
import PartPatch.Files
import PartPatch.Proofs.Entries
import PartPatch.Proofs.Except

/-!
# Places and paths

Where a path leads can be told from its names alone, provided that there are directories on the way.
Directories are made only where there was nothing, so that all paths lead where they led before.
-/

namespace PartPatch

set_option autoImplicit false

/-- The place that a path leads to, directories on the way taken for granted. -/
def FilePath.placeOf (path : String) : Place :=
  (segmentsOf path).foldl Place.enter []

theorem FilePath.slash_not_mem_split {name : List Char} {s : List Char}
    (h : name ∈ Text.split '/' s) : '/' ∉ name := by
  induction s generalizing name with
  | nil =>
    cases List.mem_singleton.1 h
    exact List.not_mem_nil
  | cons c s ih =>
    rw [Text.split] at h
    split at h
    · rcases List.mem_cons.1 h with rfl | h
      · exact List.not_mem_nil
      · exact ih h
    · next hc =>
      split at h
      · cases List.mem_singleton.1 h
        exact fun hmem => hc (List.mem_singleton.1 hmem).symm
      · next part parts heq =>
        rw [heq] at ih
        rcases List.mem_cons.1 h with rfl | h
        · intro hmem
          rcases List.mem_cons.1 hmem with rfl | hmem
          · exact hc rfl
          · exact ih List.mem_cons_self hmem
        · exact ih (List.mem_cons_of_mem part h)

/-- Only the first name of a path can be a slash. -/
theorem FilePath.segmentsOf_cases (path : String) : ∃ names, "/" ∉ names ∧
    (segmentsOf path = names ∨ segmentsOf path = "/" :: names) := by
  have hroot : ∀ s : List Char, "/" ∉ (Text.split '/' s).map String.ofList := by
    intro s hmem
    obtain ⟨name, hname, hslash⟩ := List.mem_map.1 hmem
    apply slash_not_mem_split hname
    rw [← String.toList_ofList (l := name), hslash]
    exact List.mem_cons_self
  unfold segmentsOf
  split
  · exact ⟨_, hroot _, Or.inr rfl⟩
  · exact ⟨_, hroot _, Or.inl rfl⟩

namespace Files

variable {f : Files} {place place' : Place} {path other text text' : String}

theorem enter_eq_ok_iff {name : String} :
    f.enter place name = .ok place' ↔
      f.item? place = some .directory ∧ place.enter name = place' := by
  unfold enter
  split
  · next h => simp [h]
  · next h => simp [h]
  · next h => simp [h]

theorem eq_placeOf_of_follow (h : f.follow path = .ok place) : place = FilePath.placeOf path := by
  have hsegments : ∀ (names : List String) (start : Place),
      names.foldlM f.enter start = .ok place → place = names.foldl Place.enter start := by
    intro names
    induction names with
    | nil =>
      intro start hstart
      exact (Except.ok.inj hstart).symm
    | cons name names ih =>
      intro start hstart
      rw [List.foldlM_cons, bind_eq_ok_iff] at hstart
      obtain ⟨next, hnext, hrest⟩ := hstart
      rw [List.foldl_cons, (enter_eq_ok_iff.1 hnext).2]
      exact ih next hrest
  unfold follow at h
  split at h
  · cases h
  · exact hsegments _ _ h

theorem item?_of_read (h : f.read path = .ok text) :
    f.item? (FilePath.placeOf path) = some (.file text) := by
  simp only [read, find, bind_eq_ok_iff] at h
  obtain ⟨item, ⟨place, hplace, hitem⟩, htext⟩ := h
  rw [← eq_placeOf_of_follow hplace]
  split at hitem
  · next found hfound =>
    cases hitem
    split at htext
    · cases htext
      exact hfound
    · cases htext
  · cases hitem

/-- Paths that lead to one place do not lead to different files. -/
theorem read_unique (same : FilePath.placeOf path = FilePath.placeOf other)
    (h : f.read path = .ok text) (h' : f.read other = .ok text') : text = text' := by
  have hitem := item?_of_read h
  rw [same, item?_of_read h'] at hitem
  cases hitem
  rfl

theorem exists_read_of_isFile (h : f.isFile path = true) : ∃ text, f.read path = .ok text := by
  unfold isFile at h
  split at h
  · next content hfind => exact ⟨content, by rw [read, hfind]; rfl⟩
  · cases h

theorem isFile_of_read (h : f.read path = .ok text) : f.isFile path = true := by
  simp only [read, bind_eq_ok_iff] at h
  obtain ⟨item, hitem, htext⟩ := h
  unfold isFile
  rw [hitem]
  split at htext
  · rfl
  · cases htext

/-! ## New items -/

theorem item?_put {item : FileItem} (h : f.item? place ≠ some .directory) (other : Place) :
    (f.put place item).item? other = if other = place then some item else f.item? other := by
  unfold item? at h ⊢
  by_cases hother : other = place
  · subst hother
    split at h
    · exact absurd rfl h
    · next houter =>
      rw [if_neg houter, if_pos rfl, put]
      exact List.lookup_cons_self
  · have hne : (other == place) = false := beq_eq_false_iff_ne.2 hother
    rw [if_neg hother, put, List.lookup_cons, hne]
    dsimp only
    rw [Entries.lookup_filter_ne hother]

/-- Directories have been made where there was nothing, and nothing else has changed. -/
structure WithDirectories (f f' : Files) : Prop where
  item_kept : ∀ place item, f.item? place = some item → f'.item? place = some item
  file_kept : ∀ place content,
    f'.item? place = some (.file content) → f.item? place = some (.file content)

theorem WithDirectories.refl (f : Files) : WithDirectories f f where
  item_kept _ _ h := h
  file_kept _ _ h := h

theorem WithDirectories.trans {f₁ f₂ f₃ : Files} (h : WithDirectories f₁ f₂)
    (h' : WithDirectories f₂ f₃) : WithDirectories f₁ f₃ where
  item_kept place item hitem := h'.item_kept place item (h.item_kept place item hitem)
  file_kept place content hfile := h.file_kept place content (h'.file_kept place content hfile)

theorem withDirectories_put (h : f.item? place = none) :
    WithDirectories f (f.put place .directory) := by
  have hput : ∀ other, (f.put place .directory).item? other = _ := item?_put (by simp [h])
  constructor
  · intro other item hitem
    rw [hput, if_neg, hitem]
    rintro rfl
    rw [h] at hitem
    cases hitem
  · intro other content hfile
    rw [hput] at hfile
    split at hfile
    · cases hfile
    · exact hfile

theorem makeFrom_withDirectories (f : Files) (place : Place) (made : Bool) (names : List String) :
    WithDirectories f (f.makeFrom place made names).2 := by
  induction names generalizing f place made with
  | nil => exact .refl f
  | cons name names ih =>
    rw [makeFrom]
    split
    · exact ih f (place.enter name) made
    · next hnone =>
      exact (withDirectories_put hnone).trans
        (ih (f.put (place.enter name) .directory) (place.enter name) true)
    · exact .refl f

theorem makeDirectories_withDirectories (f : Files) (names : List String) :
    WithDirectories f (f.makeDirectories names).2 :=
  makeFrom_withDirectories f [] false names

/-! ## What stays where it was -/

theorem find_eq_ok_iff {item : FileItem} :
    f.find path = .ok item ↔ ∃ place, f.follow path = .ok place ∧ f.item? place = some item := by
  rw [find, bind_eq_ok_iff]
  refine exists_congr fun place => and_congr_right fun _ => ?_
  cases f.item? place with
  | none => exact iff_of_false (fun h => nomatch h) (fun h => nomatch h)
  | some found =>
    rw [Option.some_inj]
    exact ⟨Except.ok.inj, congrArg Except.ok⟩

theorem isFile_iff : f.isFile path = true ↔
    ∃ place content, f.follow path = .ok place ∧ f.item? place = some (.file content) := by
  constructor
  · intro h
    unfold isFile at h
    split at h
    · next content hfind =>
      obtain ⟨place, hplace, hitem⟩ := find_eq_ok_iff.1 hfind
      exact ⟨place, content, hplace, hitem⟩
    · cases h
  · rintro ⟨place, content, hplace, hitem⟩
    rw [isFile, find_eq_ok_iff.2 ⟨place, hplace, hitem⟩]

theorem write_eq_ok_iff {f' : Files} : f.write path text = .ok f' ↔
    ∃ place, f.follow path = .ok place ∧ f.item? place ≠ some .directory ∧
      f' = f.put place (.file text) := by
  rw [write, bind_eq_ok_iff]
  refine exists_congr fun place => and_congr_right fun _ => ?_
  split
  · next h => simp [h, throw, throwThe, MonadExceptOf.throw]
  · next h =>
    rw [and_iff_right h]
    exact ⟨fun e => (Except.ok.inj e).symm, fun e => congrArg Except.ok e.symm⟩

/-- Directories are still directories and files are still files, whatever is in them now. -/
structure Keeps (f f' : Files) : Prop where
  directory : ∀ place, f.item? place = some .directory → f'.item? place = some .directory
  file : ∀ place content, f.item? place = some (.file content) →
    ∃ content', f'.item? place = some (.file content')

namespace Keeps

variable {f' : Files}

theorem refl (f : Files) : Keeps f f where
  directory _ h := h
  file _ content h := ⟨content, h⟩

theorem trans {f₁ f₂ f₃ : Files} (h : Keeps f₁ f₂) (h' : Keeps f₂ f₃) : Keeps f₁ f₃ where
  directory place hitem := h'.directory place (h.directory place hitem)
  file place content hitem := by
    obtain ⟨content', hitem'⟩ := h.file place content hitem
    exact h'.file place content' hitem'

theorem of_withDirectories (h : WithDirectories f f') : Keeps f f' where
  directory place hitem := h.item_kept place .directory hitem
  file place content hitem := ⟨content, h.item_kept place (.file content) hitem⟩

theorem of_write (h : f.write path text = .ok f') : Keeps f f' := by
  obtain ⟨place, _, hnot, rfl⟩ := write_eq_ok_iff.1 h
  constructor
  · intro other hitem
    rw [item?_put hnot, if_neg, hitem]
    rintro rfl
    exact hnot hitem
  · intro other content hitem
    rw [item?_put hnot]
    split
    · exact ⟨text, rfl⟩
    · exact ⟨content, hitem⟩

theorem follow (h : Keeps f f') (hfollow : f.follow path = .ok place) :
    f'.follow path = .ok place := by
  have hnames : ∀ (names : List String) (start : Place),
      names.foldlM f.enter start = .ok place → names.foldlM f'.enter start = .ok place := by
    intro names
    induction names with
    | nil => exact fun _ hstart => hstart
    | cons name names ih =>
      intro start hstart
      rw [List.foldlM_cons, bind_eq_ok_iff] at hstart ⊢
      obtain ⟨next, hnext, hrest⟩ := hstart
      obtain ⟨hdirectory, hplace⟩ := enter_eq_ok_iff.1 hnext
      exact ⟨next, enter_eq_ok_iff.2 ⟨h.directory start hdirectory, hplace⟩, ih next hrest⟩
  unfold Files.follow at hfollow ⊢
  split at hfollow
  · cases hfollow
  · next hpath =>
    rw [if_neg hpath]
    exact hnames _ _ hfollow

theorem isFile (h : Keeps f f') (hfile : f.isFile path = true) : f'.isFile path = true := by
  obtain ⟨place, content, hplace, hitem⟩ := isFile_iff.1 hfile
  obtain ⟨content', hitem'⟩ := h.file place content hitem
  exact isFile_iff.2 ⟨place, content', h.follow hplace, hitem'⟩

end Keeps

/-- The content of the file at a place, if there is one. -/
def content? (f : Files) (place : Place) : Option String :=
  match f.item? place with
  | some (.file content) => some content
  | _ => none

theorem content?_eq_some_iff :
    f.content? place = some text ↔ f.item? place = some (.file text) := by
  unfold content?
  split
  · next content h => rw [h, Option.some_inj, Option.some_inj, FileItem.file.injEq]
  · next h => exact iff_of_false (fun e => nomatch e) fun e => h text e

theorem WithDirectories.content? {f' : Files} (h : WithDirectories f f') :
    f'.content? = f.content? := by
  funext place
  apply Option.ext
  intro text
  rw [content?_eq_some_iff, content?_eq_some_iff]
  exact ⟨h.file_kept place text, h.item_kept place (.file text)⟩

theorem content?_of_write {f' : Files} (h : f.write path text = .ok f') :
    f'.content? = Function.update f.content? (FilePath.placeOf path) (some text) := by
  obtain ⟨place, hplace, hnot, rfl⟩ := write_eq_ok_iff.1 h
  funext other
  rw [← eq_placeOf_of_follow hplace, content?, item?_put hnot, Function.update_apply]
  by_cases hother : other = place
  · rw [if_pos hother, if_pos hother]
  · rw [if_neg hother, if_neg hother]
    rfl

/-! ## Files in directories -/

variable {found reached : Files}

/-- All that there is stands in directories. -/
def IsTree (f : Files) : Prop :=
  ∀ entry ∈ f.items, f.item? entry.1.parent = some .directory

instance : DecidablePred IsTree := fun _ => List.decidableBAll _ _

theorem IsTree.directory_parent (h : f.IsTree) {item : FileItem}
    (hitem : f.item? place = some item) (hinner : ¬ place.isOutermost = true) :
    f.item? place.dropLast = some .directory := by
  rw [item?, if_neg hinner] at hitem
  have hparent := h _ (Entries.mem_of_lookup hitem)
  rwa [Place.parent, if_neg, if_neg hinner] at hparent
  rintro rfl
  exact hinner rfl

theorem IsTree.directory_above (h : f.IsTree) {item : FileItem}
    (hitem : f.item? place = some item) (habove : place' <+: place) (hne : place' ≠ place) :
    f.item? place' = some .directory := by
  induction place using List.reverseRecOn generalizing item with
  | nil => exact absurd (List.prefix_nil.1 habove) hne
  | append_singleton outer name ih =>
    have houter : place' <+: outer := (List.prefix_concat_iff.1 habove).resolve_left hne
    by_cases hplace : Place.isOutermost (outer ++ [name]) = true
    · have hplace' : Place.isOutermost place' = true := by
        rw [Place.isOutermost, Bool.or_eq_true, beq_iff_eq] at hplace ⊢
        rcases hplace with hplace | hplace
        · obtain rfl : outer = [] := by simpa using congrArg List.length hplace
          exact Or.inr (List.prefix_nil.1 houter ▸ rfl)
        · rw [List.all_eq_true] at hplace ⊢
          exact Or.inr fun up hup => hplace up (habove.subset hup)
      rw [item?, if_pos hplace']
    · have hdirectory := h.directory_parent hitem hplace
      rw [List.dropLast_concat] at hdirectory
      by_cases hsame : place' = outer
      · rw [hsame, hdirectory]
      · exact ih hdirectory houter hsame

theorem start_prefix_enter {name : String} (hup : name ≠ "..") (hroot : name ≠ "/") :
    place <+: place.enter name := by
  unfold Place.enter
  rw [if_neg hup, if_neg hroot]
  split
  · exact List.prefix_refl place
  · exact List.prefix_append place [name]

/-- Names that lead to a file that was there at first lead there as soon as anything does, if none
of them leads upwards: the directories on the way were there at first, too. -/
theorem foldlM_enter_of_reached (tree : f.IsTree) (hfound : Keeps f found)
    (hreached : Keeps f reached) (hfile : f.item? place = some (.file text)) (names : List String)
    (start : Place) (hup : ".." ∉ names) (hroot : "/" ∉ names)
    (h : names.foldlM reached.enter start = .ok place) :
    start <+: place ∧ names.foldlM found.enter start = .ok place := by
  induction names generalizing start with
  | nil =>
    cases h
    exact ⟨List.prefix_refl _, rfl⟩
  | cons name names ih =>
    rw [List.foldlM_cons, bind_eq_ok_iff] at h
    obtain ⟨next, hnext, hrest⟩ := h
    obtain ⟨hdirectory, henter⟩ := enter_eq_ok_iff.1 hnext
    have hforward : start <+: next := by
      rw [← henter]
      exact start_prefix_enter (fun e => hup (e ▸ List.mem_cons_self))
        (fun e => hroot (e ▸ List.mem_cons_self))
    obtain ⟨honward, hnames⟩ := ih next (fun hmem => hup (List.mem_cons_of_mem name hmem))
      (fun hmem => hroot (List.mem_cons_of_mem name hmem)) hrest
    refine ⟨hforward.trans honward, ?_⟩
    have hstart : start ≠ place := by
      rintro rfl
      obtain ⟨content, hkept⟩ := hreached.file start text hfile
      rw [hkept] at hdirectory
      cases hdirectory
    have hthere := tree.directory_above hfile (hforward.trans honward) hstart
    rw [List.foldlM_cons, bind_eq_ok_iff]
    exact ⟨next, enter_eq_ok_iff.2 ⟨hfound.directory start hthere, henter⟩, hnames⟩

theorem follow_of_reached (tree : f.IsTree) (hfound : Keeps f found) (hreached : Keeps f reached)
    (hfile : f.item? place = some (.file text)) (hup : ".." ∉ FilePath.segmentsOf path)
    (h : reached.follow path = .ok place) : found.follow path = .ok place := by
  unfold follow at h ⊢
  split at h
  · cases h
  · next hpath =>
    rw [if_neg hpath]
    obtain ⟨names, hroot, hnames | hnames⟩ := FilePath.segmentsOf_cases path
    · rw [hnames] at h hup ⊢
      exact (foldlM_enter_of_reached tree hfound hreached hfile names [] hup hroot h).2
    · rw [hnames] at h hup ⊢
      -- A slash at the start leads to the root of all from anywhere.
      rw [List.foldlM_cons, bind_eq_ok_iff] at h ⊢
      obtain ⟨outer, houter, hrest⟩ := h
      refine ⟨outer, enter_eq_ok_iff.2 ⟨rfl, (enter_eq_ok_iff.1 houter).2⟩, ?_⟩
      exact (foldlM_enter_of_reached tree hfound hreached hfile names outer
        (fun hmem => hup (List.mem_cons_of_mem "/" hmem)) hroot hrest).2

end Files

end PartPatch
