import PartPatch.Proofs.Patch.Creation

/-!
# Files that a session writes

What is in the files after patches were applied: what was there before, and the bodies of the parts
whose operations were applied, written one after the other. An operation that ends the program for
lack of a number has written its body, too.
-/

namespace PartPatch

set_option autoImplicit false

/-- The contents of files after texts have been written at the paths, one after the other. -/
def Files.overwrite (contents : Place → Option String) (texts : List (String × String)) :
    Place → Option String :=
  texts.foldl (fun contents text =>
    Function.update contents (FilePath.placeOf text.1) (some text.2)) contents

/-- At a place is what was there before, or the last of the texts that have been written to it. -/
theorem Files.overwrite_cases (contents : Place → Option String) (texts : List (String × String))
    (place : Place) : overwrite contents texts place = contents place ∨
      ∃ path text, (path, text) ∈ texts ∧ FilePath.placeOf path = place ∧
        overwrite contents texts place = some text := by
  induction texts generalizing contents with
  | nil => exact Or.inl rfl
  | cons text texts ih =>
    rw [overwrite, List.foldl_cons]
    rcases ih (Function.update contents (FilePath.placeOf text.1) (some text.2)) with
      hbefore | ⟨path, content, hmem, hplace, hlast⟩
    · by_cases hplace : FilePath.placeOf text.1 = place
      · refine Or.inr ⟨text.1, text.2, List.mem_cons_self, hplace, hbefore.trans ?_⟩
        rw [hplace, Function.update_self]
      · refine Or.inl (hbefore.trans ?_)
        rw [Function.update_of_ne (Ne.symm hplace)]
    · exact Or.inr ⟨path, content, List.mem_cons_of_mem text hmem, hplace, hlast⟩

namespace Session

open DirectoryPackage (Creation)

/-- The operation got past storing a body, if it had one to store: it was applied, or the program
ended because no number was left for the part's relationship. -/
def Event.Stores (event : Event DirectoryPackage) : Prop :=
  event.result = .ok .applied ∨ stops event.result = true

instance (event : Event DirectoryPackage) : Decidable event.Stores :=
  inferInstanceAs (Decidable (_ ∨ _))

/-- The file that an operation has written, if it has: its path and its text. -/
def Event.body? (s : Session) (event : Event DirectoryPackage) : Option (String × String) :=
  match event.record.operation with
  | .ensurePart part fragment =>
    if event.Stores then
      match s.request event.found.hasPart part fragment with
      | .ok c => some (event.found.pathOf c.part.name, Xml.write c.body)
      | .error _ => none
    else none
  | _ => none

variable {s : Session} {p q : DirectoryPackage} {event : Event DirectoryPackage}
  {path text : String}

/-! ## One operation -/

theorem body?_of_ensurePart {part fragment : String}
    (hoperation : event.record.operation = .ensurePart part fragment) : event.body? s =
      if event.Stores then
        match s.request event.found.hasPart part fragment with
        | .ok c => some (event.found.pathOf c.part.name, Xml.write c.body)
        | .error _ => none
      else none := by
  unfold Event.body?
  rw [hoperation]

/-- What has written a body asked for a creation, and got past storing it. -/
theorem of_body? (h : event.body? s = some (path, text)) : event.Stores ∧
    ∃ part fragment c, s.request event.found.hasPart part fragment = .ok c ∧
      path = event.found.pathOf c.part.name := by
  unfold Event.body? at h
  split at h
  · next part fragment _ =>
    split at h
    · next hstores =>
      split at h
      · next c hc =>
        cases h
        exact ⟨hstores, part, fragment, c, hc, rfl⟩
      · cases h
    · cases h
  · cases h

/-- A body is written only if its path does not lead to a file. -/
theorem not_isFile_of_body? (h : event.body? s = some (path, text)) :
    event.found.files.isFile path = false := by
  obtain ⟨_, part, fragment, c, hc, rfl⟩ := of_body? h
  obtain ⟨_, hnew, _⟩ := request_eq_ok_iff.1 hc
  rw [DirectoryPackage.hasPart, Bool.or_eq_false_iff] at hnew
  exact hnew.2

theorem stores_of_call {index : Nat} {kind : OperationKind} {keys : List String}
    {answer : Except PartError CreatedPart}
    (h : event.result = (resultOf answer).mapError (PatchError.mk index kind keys)) :
    event.Stores ↔ DirectoryPackage.Stored answer := by
  unfold Event.Stores DirectoryPackage.Stored
  rw [h, stops_mapError, mapError_eq_ok_iff]
  cases answer with
  | error e => simp [resultOf]
  | ok made => simp [resultOf]

theorem not_stores_of_request {index : Nat} {kind : OperationKind} {keys : List String}
    {part fragment : String} {done : Except OperationError OperationResult}
    (hrequest : s.request event.found.hasPart part fragment = .error done)
    (h : event.result = done.mapError (PatchError.mk index kind keys)) : ¬ event.Stores := by
  obtain ⟨hplain, hgoes⟩ := done_of_request hrequest
  unfold Event.Stores
  rw [h, stops_mapError, mapError_eq_ok_iff]
  exact fun hstores => hstores.elim hplain hgoes

/-- The step: an operation writes its body, below directories that may be new, or writes nothing. -/
theorem event_cases (h : event.IsFaithful s) (hwrites : event.found.dryRun = false) :
    (∃ path text reached, event.body? s = some (path, text) ∧
        Files.WithDirectories event.found.files reached ∧
        reached.write path text = .ok event.left.files) ∨
      event.body? s = none ∧ Files.WithDirectories event.found.files event.left.files := by
  obtain ⟨hleft, hresult⟩ := h
  cases hoperation : event.record.operation with
  | ensurePart part fragment =>
    obtain ⟨index, hresult⟩ := hresult part fragment hoperation
    rw [hoperation, packageAfter, ensurePart_eq] at hleft
    rw [ensurePart_eq] at hresult
    rw [hleft, body?_of_ensurePart hoperation]
    cases hrequest : s.request event.found.hasPart part fragment with
    | error done =>
      rw [hrequest] at hresult
      exact Or.inr ⟨if_neg (not_stores_of_request hrequest hresult), .refl _⟩
    | ok c =>
      rw [hrequest] at hresult
      dsimp only at hresult ⊢
      rcases DirectoryPackage.files_create event.found c with
        ⟨hstored, _, reached, hreached, hwrite⟩ | ⟨hnot | hon, hfiles, _⟩
      · exact Or.inl ⟨_, _, reached, if_pos ((stores_of_call hresult).2 hstored), hreached, hwrite⟩
      · exact Or.inr ⟨if_neg (mt (stores_of_call hresult).1 hnot), hfiles⟩
      · rw [hwrites] at hon
        cases hon
  | _ =>
    rw [hoperation] at hleft
    rw [hleft, Event.body?, hoperation]
    exact Or.inr ⟨rfl, .refl _⟩

/-- The contents that an operation leaves are those that it finds, with the body that it writes. -/
theorem contents_of_event (h : event.IsFaithful s) (hwrites : event.found.dryRun = false) :
    event.left.files.content? =
      Files.overwrite event.found.files.content? (event.body? s).toList := by
  rcases event_cases h hwrites with ⟨path, text, reached, hbody, hreached, hwrite⟩ | ⟨hbody, hfiles⟩
  · rw [hbody, Files.content?_of_write hwrite, hreached.content?]
    rfl
  · rw [hbody, hfiles.content?]
    rfl

theorem keeps_of_event (h : event.IsFaithful s) (hwrites : event.found.dryRun = false) :
    Files.Keeps event.found.files event.left.files := by
  rcases event_cases h hwrites with ⟨path, text, reached, _, hreached, hwrite⟩ | ⟨_, hfiles⟩
  · exact (Files.Keeps.of_withDirectories hreached).trans (.of_write hwrite)
  · exact .of_withDirectories hfiles

/-- A body is written over a file that was there at first only by a path that leads nowhere yet. -/
theorem follow_of_body? {first : Files} {old : String}
    (hfound : Files.Keeps first event.found.files) (hbody : event.body? s = some (path, text))
    (hold : first.content? (FilePath.placeOf path) = some old) :
    ∃ e, event.found.files.follow path = .error e := by
  cases hfollow : event.found.files.follow path with
  | error e => exact ⟨e, rfl⟩
  | ok place =>
    have hitem := Files.content?_eq_some_iff.1 hold
    rw [← Files.eq_placeOf_of_follow hfollow] at hitem
    obtain ⟨content, hkept⟩ := hfound.file place old hitem
    have hfile := Files.isFile_iff.2 ⟨place, content, hfollow, hkept⟩
    rw [not_isFile_of_body? hbody] at hfile
    cases hfile

/-- A body is written over a file that was there at first only by a path that leads upwards
somewhere: only such a path can lead to a file once directories have been made on its way, and not
before. -/
theorem up_mem_of_body? {first : Files} {old : String} (h : event.IsFaithful s)
    (hwrites : event.found.dryRun = false) (tree : first.IsTree)
    (hfound : Files.Keeps first event.found.files) (hbody : event.body? s = some (path, text))
    (hold : first.content? (FilePath.placeOf path) = some old) :
    ".." ∈ FilePath.segmentsOf path := by
  by_contra hup
  rcases event_cases h hwrites with ⟨path', text', reached, hbody', hreached, hwrite⟩ | ⟨hnone, _⟩
  · cases hbody.symm.trans hbody'
    obtain ⟨place, hfollow, _, _⟩ := Files.write_eq_ok_iff.1 hwrite
    have hitem := Files.content?_eq_some_iff.1 hold
    rw [← Files.eq_placeOf_of_follow hfollow] at hitem
    have hthere := Files.follow_of_reached tree hfound
      (hfound.trans (.of_withDirectories hreached)) hitem hup hfollow
    obtain ⟨e, hnowhere⟩ := follow_of_body? hfound hbody hold
    cases hthere.symm.trans hnowhere
  · cases hbody.symm.trans hnone

/-! ## Sessions -/

/-- What holds of a package that writes, and of each that an operation leaves, holds wherever an
operation of the run starts, and at the end. -/
theorem writes_of_leads {first : Files} {events : List (Event DirectoryPackage)}
    (hleads : Leads p events q) (hfaithful : ∀ event ∈ events, event.IsFaithful s)
    (hwrites : p.dryRun = false) (hkeeps : Files.Keeps first p.files) :
    ∀ event ∈ events, event.found.dryRun = false ∧ Files.Keeps first event.found.files := by
  induction events generalizing p with
  | nil => exact fun event hevent => nomatch hevent
  | cons event events ih =>
    obtain ⟨rfl, hrest⟩ := hleads
    have hevent := hfaithful event List.mem_cons_self
    have hleft : event.left.dryRun = false := by
      rw [hevent.1, dryRun_packageAfter, hwrites]
    intro other hother
    rcases List.mem_cons.1 hother with rfl | hother
    · exact ⟨hwrites, hkeeps⟩
    · exact ih hrest (fun e he => hfaithful e (List.mem_cons_of_mem event he)) hleft
        (hkeeps.trans (keeps_of_event hevent hwrites)) other hother

/-- The files after a run have the contents from before it and the bodies that were written. -/
theorem contents_of_leads {events : List (Event DirectoryPackage)} (hleads : Leads p events q)
    (hfaithful : ∀ event ∈ events, event.IsFaithful s) (hwrites : p.dryRun = false) :
    q.files.content? = Files.overwrite p.files.content? (events.filterMap (Event.body? s)) := by
  induction events generalizing p with
  | nil => exact hleads ▸ rfl
  | cons event events ih =>
    obtain ⟨rfl, hrest⟩ := hleads
    have hevent := hfaithful event List.mem_cons_self
    have hleft : event.left.dryRun = false := by
      rw [hevent.1, dryRun_packageAfter, hwrites]
    rw [ih hrest (fun e he => hfaithful e (List.mem_cons_of_mem event he)) hleft,
      contents_of_event hevent hwrites]
    rw [List.filterMap_cons]
    cases event.body? s with
    | none => rfl
    | some text => rfl

end Session

end PartPatch
