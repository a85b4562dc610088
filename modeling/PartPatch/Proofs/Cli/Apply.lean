import PartPatch.Cli.Apply
import PartPatch.Proofs.Patch.Bodies
import PartPatch.Proofs.Patch.Rehearsal

/-!
# What the command `apply` writes

The patches are applied in the order of their paths, in one session, up to the first that fails.
What is in the files afterwards is told from that session: what was in them before, over it the
bodies of the parts whose operations were applied, and over these the patched part. An overflow ends
the program, and leaves the body of the part that it was about.
-/

namespace PartPatch

set_option autoImplicit false

/-! ## The order of patch files -/

theorem append_le_append (front : String) {a b : String} (h : a ≤ b) : front ++ a ≤ front ++ b := by
  have hlist : ¬ b.toList < a.toList := h
  change ¬ (front ++ b).toList < (front ++ a).toList
  rw [String.toList_append, String.toList_append]
  exact List.append_left_le hlist

theorem FilePath.join_le_join (directory : String) {a b : String} (h : a ≤ b) :
    join directory a ≤ join directory b := by
  unfold join
  split
  · exact append_le_append directory h
  · rw [String.append_assoc, String.append_assoc]
    exact append_le_append directory (append_le_append "/" h)

theorem Files.entries_sorted (f : Files) (place : Place) :
    (f.entries place).Pairwise fun a b => a.1 ≤ b.1 := by
  have hsorted : (f.entries place).Pairwise fun a b => decide (a.1 ≤ b.1) = true := by
    apply List.pairwise_mergeSort
    · intro a b c hab hbc
      exact decide_eq_true (String.le_trans (of_decide_eq_true hab) (of_decide_eq_true hbc))
    · intro a b
      rw [Bool.or_eq_true, decide_eq_true_iff, decide_eq_true_iff]
      exact String.le_total a.1 b.1
  exact hsorted.imp of_decide_eq_true

/-- Patch files are found in the order of their paths. -/
theorem Patch.discover_sorted {files : Files} {path : String} {paths : List String}
    (h : discover files path = .ok paths) : paths.Pairwise (· ≤ ·) := by
  unfold discover at h
  split at h
  · cases h
    exact List.pairwise_singleton _ _
  · split at h
    · cases h
    · next place _ =>
      split at h
      · cases h
      · cases h
        refine (Files.entries_sorted files place).filterMap _ ?_
        rintro ⟨a, item⟩ ⟨b, item'⟩ hle left hleft right hright
        have hjoined : ∀ {wanted : Prop} [Decidable wanted] {name found : String},
            (if wanted then some (FilePath.join path name) else none) = some found →
              FilePath.join path name = found := by
          intro wanted _ name found hfound
          split at hfound
          · exact Option.some.inj hfound
          · cases hfound
        cases item with
        | directory => cases hleft
        | file _ =>
          cases item' with
          | directory => cases hright
          | file _ =>
            rw [← hjoined hleft, ← hjoined hright]
            exact FilePath.join_le_join path hle

/-! ## Reading statements -/

namespace Toml

/-- The statements of a text, if there are fewer than `bound`. -/
def readStatementsBelow? (bound : Nat) (s : List Char) : Option (List Statement) :=
  match bound with
  | 0 => none
  | bound + 1 =>
    match skipFiller s with
    | [] => some []
    | c :: t =>
      match readStatement? (c :: t) with
      | none => none
      | some (statement, u) =>
        match endOfLine? u.1 with
        | none => none
        | some r => (readStatementsBelow? bound r.1).map (statement :: ·)

theorem readStatements?_of_below (bound : Nat) {s : List Char} {statements : List Statement}
    (h : readStatementsBelow? bound s = some statements) : readStatements? s = some statements := by
  induction bound generalizing s statements with
  | zero => cases h
  | succ bound ih =>
    rw [readStatementsBelow?] at h
    rw [readStatements?]
    split
    · next hfiller =>
      rw [hfiller] at h
      exact h
    · next c t hfiller =>
      rw [hfiller] at h
      dsimp only at h
      split
      · next hnone =>
        rw [hnone] at h
        cases h
      · next statement u hu hstatement =>
        rw [hstatement] at h
        dsimp only at h
        split
        · next hnone =>
          rw [hnone] at h
          cases h
        · next r hr hend =>
          rw [hend] at h
          obtain ⟨rest, hrest, rfl⟩ := Option.map_eq_some_iff.1 h
          rw [ih hrest]
          rfl

end Toml

namespace Cli

open Session (Event)

/-! ## Patches in one session -/

section

variable {P : Type} [Package P] {s : Session}

/-- The patches that a session gets to: all up to the first that fails. -/
def tried (s : Session) (w : Workspace P) : List PatchFile → List Patch
  | [] => []
  | file :: more =>
    file.patch ::
      match s.apply w file.patch with
      | (.error _, _) => []
      | (.ok _, left) => tried s left more

theorem workspace_applyAll (w : Workspace P) (patches : List PatchFile) :
    (applyAll s w patches).workspace = (s.applyEach w (tried s w patches)).2 := by
  induction patches generalizing w with
  | nil => rfl
  | cons file more ih =>
    rw [applyAll, tried]
    rcases happly : s.apply w file.patch with ⟨e | report, left⟩
    · dsimp only
      rw [Session.applyEach, happly]
      split
      · rfl
      · rfl
    · dsimp only
      rw [Session.applyEach, happly]
      exact ih left

theorem failure_applyAll (w : Workspace P) (patches : List PatchFile) :
    (applyAll s w patches).failure = none ↔
      ∀ answer ∈ (s.applyEach w (patches.map PatchFile.patch)).1,
        ∃ report, answer = .ok report := by
  induction patches generalizing w with
  | nil => exact iff_of_true rfl (List.forall_mem_nil _)
  | cons file more ih =>
    rw [applyAll, List.map_cons, Session.applyEach]
    rcases happly : s.apply w file.patch with ⟨e | report, left⟩
    · refine iff_of_false (Option.some_ne_none _) fun h => ?_
      obtain ⟨report, hreport⟩ : ∃ report, Except.error e = .ok report := by
        apply h
        split
        · exact List.mem_cons_self
        · exact List.mem_cons_self
      cases hreport
    · have hgoes : ¬ Session.stops (Except.ok report : Except PatchError PatchReport) = true :=
        Bool.false_ne_true
      dsimp only
      rw [if_neg hgoes, List.forall_mem_cons, ih left]
      exact (and_iff_right ⟨report, rfl⟩).symm

/-- The operation that failed is the one that the run ended with. -/
theorem failure_of_mem_events {w : Workspace P} {patches : List PatchFile} {event : Event P}
    {e : PatchError} (h : event ∈ (s.eventsEach w (tried s w patches)).flatten)
    (he : event.result = .error e) : ∃ path, (applyAll s w patches).failure = some (path, e) := by
  induction patches generalizing w with
  | nil => cases h
  | cons file more ih =>
    rw [tried, Session.eventsEach, List.flatten_cons, List.mem_append] at h
    rw [applyAll]
    rcases happly : s.apply w file.patch with ⟨e' | report, left⟩
    · rw [happly] at h
      rcases h with h | h
      · have hanswer := Session.apply_of_mem_eventsOf h he
        rw [happly] at hanswer
        cases hanswer
        exact ⟨file.path, rfl⟩
      · split at h
        · cases h
        · cases h
    · rw [happly] at h
      rcases h with h | h
      · have hanswer := Session.apply_of_mem_eventsOf h he
        rw [happly] at hanswer
        cases hanswer
      · exact ih h

theorem tried_eq_of_failure {w : Workspace P} {patches : List PatchFile}
    (h : (applyAll s w patches).failure = none) :
    tried s w patches = patches.map PatchFile.patch := by
  induction patches generalizing w with
  | nil => rfl
  | cons file more ih =>
    rw [applyAll] at h
    rw [tried, List.map_cons]
    rcases happly : s.apply w file.patch with ⟨e | report, left⟩
    · rw [happly] at h
      cases h
    · rw [happly] at h
      exact congrArg (file.patch :: ·) (ih h)

end

/-! ## What is loaded -/

/-- What the command has loaded when it comes to the patches. -/
structure Loaded (o : ApplyOptions) (files : Files) (r : Registry) (setup : Setup) : Prop where
  registry : Registry.load files o.registry = .ok r
  rest : Setup.load o files r = .ok setup
  part : Xml.load files o.part = .ok setup.tree
  /-- The patches come from the files that are found, in the order of their paths. -/
  patches : ∃ paths, Patch.discover files o.patches = .ok paths ∧ paths.Pairwise (· ≤ ·) ∧
    List.Forall₂ (fun path file => file.path = path ∧
      Patch.loadFor files path r = .ok file.patch) paths setup.patches

theorem loadPatches_eq_ok {files : Files} {path : String} {r : Registry}
    {patches : List PatchFile} (h : loadPatches files path r = .ok patches) :
    ∃ paths, Patch.discover files path = .ok paths ∧
      List.Forall₂ (fun path file => file.path = path ∧
        Patch.loadFor files path r = .ok file.patch) paths patches := by
  rw [loadPatches, bind_eq_ok_iff] at h
  obtain ⟨paths, hpaths, hload⟩ := h
  refine ⟨paths, mapError_eq_ok_iff.1 hpaths, ?_⟩
  split at hload
  · cases hload
  · refine (forall₂_of_mapM_eq_ok hload).imp fun path file hfile => ?_
    have hfile := mapError_eq_ok_iff.1 hfile
    cases hpatch : Patch.loadFor files path r with
    | error e =>
      rw [hpatch] at hfile
      cases hfile
    | ok patch =>
      rw [hpatch] at hfile
      cases hfile
      exact ⟨rfl, rfl⟩

theorem loaded_of_load {o : ApplyOptions} {files : Files} {r : Registry} {setup : Setup}
    (hregistry : Registry.load files o.registry = .ok r)
    (hsetup : Setup.load o files r = .ok setup) : Loaded o files r setup := by
  have hload := hsetup
  rw [Setup.load, bind_eq_ok_iff] at hload
  obtain ⟨tokens, _, hload⟩ := hload
  rw [bind_eq_ok_iff] at hload
  obtain ⟨patches, hpatches, hload⟩ := hload
  obtain ⟨paths, hpaths, hfiles⟩ := loadPatches_eq_ok hpatches
  have htree : ∃ tree, Xml.load files o.part = .ok tree ∧ setup = ⟨tokens, patches, tree⟩ := by
    have hlast : (do return ⟨tokens, patches,
          ← (Xml.load files o.part).mapError (Failure.part o.part)⟩) = Except.ok setup →
        ∃ tree, Xml.load files o.part = .ok tree ∧ setup = ⟨tokens, patches, tree⟩ := by
      intro hlast
      obtain ⟨tree, htree, hsetup⟩ := bind_eq_ok_iff.1 hlast
      exact ⟨tree, mapError_eq_ok_iff.1 htree, (Except.ok.inj hsetup).symm⟩
    dsimp only at hload
    split at hload
    · split at hload
      · cases hload
      · exact hlast hload
    · exact hlast hload
  obtain ⟨tree, htree, rfl⟩ := htree
  exact ⟨hregistry, hsetup, htree, paths, hpaths, Patch.discover_sorted hpaths, hfiles⟩

/-! ## What is written -/

section

variable (o : ApplyOptions) (files : Files) (r : Registry) (setup : Setup)

/-- The session that all patches share. -/
def session : Session :=
  ⟨r, setup.tokens.resolve, o.allOptional⟩

/-- Where the patches begin if there is a directory for new parts. -/
def start (dir : String) : Workspace DirectoryPackage :=
  ⟨setup.tree, .empty, .ofDirectory dir o.dryRun files⟩

/-- All patches one after the other: what each comes to, and the part after them. -/
def inTurn : List (Except PatchError PatchReport) × Tree :=
  let patches := setup.patches.map PatchFile.patch
  match o.partsDir with
  | some dir =>
    let (answers, w) := (session o r setup).applyEach (start o files setup dir) patches
    (answers, w.tree)
  | none =>
    let (answers, w) := (session o r setup).applyEach ⟨setup.tree, .empty, MemoryPackage.empty⟩
      patches
    (answers, w.tree)

def AllApplied : Prop :=
  ∀ answer ∈ (inTurn o files r setup).1, ∃ report, answer = .ok report

/-- The operations that are carried out on the directory for new parts. -/
def events : List (Event DirectoryPackage) :=
  match o.partsDir with
  | some dir =>
    let w := start o files setup dir
    ((session o r setup).eventsEach w (tried (session o r setup) w setup.patches)).flatten
  | none => []

/-- The bodies of the parts that operations have stored, unless nothing is written. -/
def bodies : List (String × String) :=
  if o.dryRun then [] else (events o files r setup).filterMap (Event.body? (session o r setup))

/-- The path that the patched part is written to. -/
def target : String :=
  o.output.getD o.part

/-- The program ended in an operation: no number was left for the relationship of its part. -/
def Stopped : Prop :=
  ∃ path e, (applySetup o files r setup).failure = some (path, e) ∧ e.cause = .part .overflow

/-- The patched part is to be written. -/
def WritesTarget : Prop :=
  AllApplied o files r setup ∧ o.dryRun = false ∧
    (o.output.isSome = true ∨
      Xml.write setup.tree ≠ Xml.write (inTurn o files r setup).2)

/-- A body was written to the place by a path that leads upwards somewhere, and that led nowhere
before the directories on its way were made. -/
def WrittenUpwards (place : Place) : Prop :=
  ∃ event ∈ events o files r setup, ∃ path text,
    event.body? (session o r setup) = some (path, text) ∧
      FilePath.placeOf path = place ∧ ".." ∈ FilePath.segmentsOf path ∧
      ∃ e, event.found.files.follow path = .error e

/-- What the command leaves behind if it comes to the patches, `parts` being the files with the
new parts. -/
structure Announced (parts : Files) (made : Outcome) : Prop where
  dryRun : o.dryRun = true → made.files = files
  contents : parts.content? = Files.overwrite files.content? (bodies o files r setup)
  /-- The part is written if it is to be and can be; if it cannot, the command fails. -/
  written : WritesTarget o files r setup →
    match parts.write (target o) (Xml.write (inTurn o files r setup).2) with
    | .ok files => made.files = files ∧ made.code = 0
    | .error _ => made.files = parts ∧ made.code = 1
  unwritten : ¬ WritesTarget o files r setup → made.files = parts ∧
    (AllApplied o files r setup ∧ made.code = 0 ∨
      ¬ AllApplied o files r setup ∧
        (¬ Stopped o files r setup ∧ made.code = 1 ∨ Stopped o files r setup ∧ made.code = 101))
  /-- A file that there was before is as it was, unless it is where the part is written to, or
  where a new part was written to in spite of it. -/
  kept : files.IsTree → ∀ place old, files.content? place = some old →
    made.files.content? place = some old ∨
      (WritesTarget o files r setup ∧ made.code = 0 ∧ place = FilePath.placeOf (target o)) ∨
      WrittenUpwards o files r setup place
  /-- A command that fails leaves nothing new but bodies of parts that were created. -/
  failed : made.code = 1 → ∀ place text, made.files.content? place = some text →
    files.content? place = some text ∨
      ∃ event ∈ events o files r setup, event.result = .ok .applied ∧
        ∃ path, event.body? (session o r setup) = some (path, text) ∧
          FilePath.placeOf path = place

end

variable {o : ApplyOptions} {files : Files} {r : Registry} {setup : Setup}

theorem failure_applySetup :
    (applySetup o files r setup).failure = none ↔ AllApplied o files r setup := by
  unfold applySetup AllApplied inTurn
  cases o.partsDir with
  | some dir => exact failure_applyAll (s := session o r setup) (start o files setup dir) _
  | none => exact failure_applyAll (s := session o r setup) ⟨_, _, MemoryPackage.empty⟩ _

theorem tree_applySetup (h : AllApplied o files r setup) :
    (applySetup o files r setup).tree = (inTurn o files r setup).2 := by
  have hnone := failure_applySetup.2 h
  unfold applySetup at hnone ⊢
  unfold inTurn
  cases hdir : o.partsDir with
  | some dir =>
    rw [hdir] at hnone
    dsimp only at hnone ⊢
    rw [workspace_applyAll, tried_eq_of_failure hnone]
    rfl
  | none =>
    rw [hdir] at hnone
    dsimp only at hnone ⊢
    rw [workspace_applyAll, tried_eq_of_failure hnone]
    rfl

theorem files_applySetup_of_dryRun (h : o.dryRun = true) :
    (applySetup o files r setup).files = files := by
  unfold applySetup
  cases o.partsDir with
  | some dir =>
    dsimp only
    rw [workspace_applyAll]
    exact Session.files_applyEach_of_dryRun h _
  | none => rfl

theorem contents_applySetup : (applySetup o files r setup).files.content? =
    Files.overwrite files.content? (bodies o files r setup) := by
  unfold bodies
  by_cases hdryRun : o.dryRun = true
  · rw [if_pos hdryRun, files_applySetup_of_dryRun hdryRun]
    rfl
  · rw [if_neg hdryRun]
    unfold applySetup events
    cases o.partsDir with
    | some dir =>
      dsimp only
      rw [workspace_applyAll]
      exact Session.contents_of_leads (Session.leads_eventsEach _ (start o files setup dir) _)
        (fun event => Session.isFaithful_of_mem_eventsEach) (Bool.eq_false_iff.2 hdryRun)
    | none => rfl

theorem mem_bodies {path text : String} (h : (path, text) ∈ bodies o files r setup) :
    o.dryRun = false ∧ ∃ event ∈ events o files r setup,
      event.body? (session o r setup) = some (path, text) := by
  unfold bodies at h
  split at h
  · cases h
  · next hdryRun => exact ⟨Bool.eq_false_iff.2 hdryRun, List.mem_filterMap.1 h⟩

/-- Where a body was written stood no file at first, unless its path leads upwards. -/
theorem writtenUpwards_of_mem_bodies (tree : files.IsTree) {path text old : String}
    (h : (path, text) ∈ bodies o files r setup)
    (hold : files.content? (FilePath.placeOf path) = some old) :
    WrittenUpwards o files r setup (FilePath.placeOf path) := by
  obtain ⟨hdryRun, event, hevent, hbody⟩ := mem_bodies h
  refine ⟨event, hevent, path, text, hbody, rfl, ?_⟩
  unfold events at hevent
  split at hevent
  · next dir _ =>
    obtain ⟨hwrites, hkeeps⟩ := Session.writes_of_leads
      (Session.leads_eventsEach (session o r setup) (start o files setup dir) _)
      (fun event => Session.isFaithful_of_mem_eventsEach) hdryRun (Files.Keeps.refl files)
      event hevent
    exact ⟨Session.up_mem_of_body? (Session.isFaithful_of_mem_eventsEach hevent) hwrites tree
      hkeeps hbody hold, Session.follow_of_body? hkeeps hbody hold⟩
  · cases hevent

theorem target?_eq_some (h : WritesTarget o files r setup) :
    target? o (Xml.write setup.tree) (Xml.write (inTurn o files r setup).2) = some (target o) := by
  obtain ⟨_, hdryRun, hchanged⟩ := h
  unfold target? target
  rw [hdryRun, if_neg Bool.false_ne_true]
  cases houtput : o.output with
  | some path => rfl
  | none =>
    rw [houtput] at hchanged
    exact if_neg (hchanged.resolve_left Bool.false_ne_true)

theorem target?_eq_none (hall : AllApplied o files r setup) (h : ¬ WritesTarget o files r setup) :
    target? o (Xml.write setup.tree) (Xml.write (inTurn o files r setup).2) = none := by
  unfold target?
  by_cases hdryRun : o.dryRun = true
  · rw [if_pos hdryRun]
  · rw [if_neg hdryRun]
    have hoff := Bool.eq_false_iff.2 hdryRun
    cases houtput : o.output with
    | some path => exact absurd ⟨hall, hoff, Or.inl (by rw [houtput]; rfl)⟩ h
    | none =>
      by_contra hne
      exact h ⟨hall, hoff, Or.inr fun hsame => hne (if_pos hsame)⟩

theorem finish_of_writes (heading : String) (h : WritesTarget o files r setup) :
    match (applySetup o files r setup).files.write (target o)
        (Xml.write (inTurn o files r setup).2) with
    | .ok written =>
      (finish o r heading setup (applySetup o files r setup)).files = written ∧
        (finish o r heading setup (applySetup o files r setup)).code = 0
    | .error _ =>
      (finish o r heading setup (applySetup o files r setup)).files =
          (applySetup o files r setup).files ∧
        (finish o r heading setup (applySetup o files r setup)).code = 1 := by
  unfold finish
  dsimp only
  rw [failure_applySetup.2 h.1, tree_applySetup h.1, target?_eq_some h]
  dsimp only [Xml.save]
  cases (applySetup o files r setup).files.write (target o)
      (Xml.write (inTurn o files r setup).2) with
  | error cause => exact ⟨rfl, rfl⟩
  | ok written => exact ⟨rfl, rfl⟩

theorem finish_of_not_writes (heading : String) (h : ¬ WritesTarget o files r setup) :
    (finish o r heading setup (applySetup o files r setup)).files =
        (applySetup o files r setup).files ∧
      (AllApplied o files r setup ∧
          (finish o r heading setup (applySetup o files r setup)).code = 0 ∨
        ¬ AllApplied o files r setup ∧
          (¬ Stopped o files r setup ∧
              (finish o r heading setup (applySetup o files r setup)).code = 1 ∨
            Stopped o files r setup ∧
              (finish o r heading setup (applySetup o files r setup)).code = 101)) := by
  unfold finish
  dsimp only
  cases hfailure : (applySetup o files r setup).failure with
  | some failure =>
    obtain ⟨path, e⟩ := failure
    have hnot : ¬ AllApplied o files r setup := fun hall => by
      rw [failure_applySetup.2 hall] at hfailure
      cases hfailure
    dsimp only
    by_cases hstops : e.cause = .part .overflow
    · rw [if_pos hstops]
      exact ⟨rfl, Or.inr ⟨hnot, Or.inr ⟨⟨path, e, hfailure, hstops⟩, rfl⟩⟩⟩
    · have hgoes : ¬ Stopped o files r setup := by
        rintro ⟨_, _, hfailure', hstops'⟩
        cases hfailure.symm.trans hfailure'
        exact hstops hstops'
      rw [if_neg hstops]
      exact ⟨rfl, Or.inr ⟨hnot, Or.inl ⟨hgoes, rfl⟩⟩⟩
  | none =>
    have hall := failure_applySetup.1 hfailure
    rw [tree_applySetup hall, target?_eq_none hall h]
    exact ⟨rfl, Or.inl ⟨hall, rfl⟩⟩

theorem stopped_of_event {event : Event DirectoryPackage} (h : event ∈ events o files r setup)
    (hstops : Session.stops event.result = true) : Stopped o files r setup := by
  cases hresult : event.result with
  | ok result =>
    rw [hresult] at hstops
    cases hstops
  | error e =>
    rw [hresult] at hstops
    unfold events at h
    unfold Stopped applySetup
    cases hdir : o.partsDir with
    | none =>
      rw [hdir] at h
      cases h
    | some dir =>
      rw [hdir] at h
      obtain ⟨path, hfailure⟩ := failure_of_mem_events h hresult
      exact ⟨path, e, hfailure, of_decide_eq_true hstops⟩

theorem not_stopped_of_code {heading : String}
    (h : (finish o r heading setup (applySetup o files r setup)).code = 1) :
    ¬ Stopped o files r setup := by
  rintro ⟨path, e, hfailure, hstops⟩
  unfold finish at h
  dsimp only at h
  rw [hfailure] at h
  dsimp only at h
  rw [if_pos hstops] at h
  cases h

/-- What is at a place after the command: what was there with the new parts, or the patched part. -/
theorem contents_finish (o : ApplyOptions) (files : Files) (r : Registry) (setup : Setup)
    (heading : String) :
    let made := finish o r heading setup (applySetup o files r setup)
    made.files = (applySetup o files r setup).files ∨
      WritesTarget o files r setup ∧ made.code = 0 ∧
        made.files.content? = Function.update (applySetup o files r setup).files.content?
          (FilePath.placeOf (target o)) (some (Xml.write (inTurn o files r setup).2)) := by
  intro made
  by_cases hwrites : WritesTarget o files r setup
  · have hmade := finish_of_writes heading hwrites
    split at hmade
    · next written hwritten =>
      refine Or.inr ⟨hwrites, hmade.2, ?_⟩
      rw [← Files.content?_of_write hwritten, ← hmade.1]
    · exact Or.inl hmade.1
  · exact Or.inl (finish_of_not_writes heading hwrites).1

theorem announced_finish (heading : String) :
    Announced o files r setup (applySetup o files r setup).files
      (finish o r heading setup (applySetup o files r setup)) where
  dryRun hdryRun := by
    have hnot : ¬ WritesTarget o files r setup := fun h => by
      rw [h.2.1] at hdryRun
      cases hdryRun
    rw [(finish_of_not_writes heading hnot).1, files_applySetup_of_dryRun hdryRun]
  contents := contents_applySetup
  written := finish_of_writes heading
  unwritten := finish_of_not_writes heading
  kept tree place old hold := by
    have hparts : (applySetup o files r setup).files.content? place = some old ∨
        WrittenUpwards o files r setup place := by
      rw [contents_applySetup]
      rcases Files.overwrite_cases files.content? (bodies o files r setup) place with
        hsame | ⟨path, text, hmem, rfl, _⟩
      · exact Or.inl (hsame.trans hold)
      · exact Or.inr (writtenUpwards_of_mem_bodies tree hmem hold)
    rcases contents_finish o files r setup heading with hfiles | ⟨hwrites, hcode, hcontents⟩
    · rw [hfiles]
      exact hparts.imp id Or.inr
    -- The part is written last, over whatever is at its place by then.
    · by_cases hplace : place = FilePath.placeOf (target o)
      · exact Or.inr (Or.inl ⟨hwrites, hcode, hplace⟩)
      · rw [hcontents, Function.update_of_ne hplace]
        exact hparts.imp id Or.inr
  failed hcode place text htext := by
    rcases contents_finish o files r setup heading with hfiles | ⟨_, hzero, _⟩
    · rw [hfiles, contents_applySetup] at htext
      rcases Files.overwrite_cases files.content? (bodies o files r setup) place with
        hsame | ⟨path, text', hmem, hplace, hlast⟩
      · exact Or.inl (hsame.symm.trans htext)
      · cases hlast.symm.trans htext
        obtain ⟨_, event, hevent, hbody⟩ := mem_bodies hmem
        have hplain : ¬ Session.stops event.result = true := fun hstops =>
          not_stopped_of_code hcode (stopped_of_event hevent hstops)
        exact Or.inr ⟨event, hevent, (Session.of_body? hbody).1.resolve_right hplain, path, hbody,
          hplace⟩
    · rw [hcode] at hzero
      cases hzero

/-- The command leaves the files as they are if something cannot be loaded. Otherwise it writes what
it announces: parts that operations have created, and the patched part if it is to be written. A
file that was there before is in danger only from a part whose path leads upwards from a directory
that is not there yet. -/
theorem apply_announced (o : ApplyOptions) (files : Files) :
    ((∀ r setup, ¬ Loaded o files r setup) ∧
        (apply o files).files = files ∧ (apply o files).code = 1) ∨
      ∃ r setup parts, Loaded o files r setup ∧
        Announced o files r setup parts (apply o files) := by
  unfold apply
  cases hregistry : Registry.load files o.registry with
  | error e =>
    refine Or.inl ⟨fun r setup h => ?_, rfl, rfl⟩
    cases hregistry.symm.trans h.registry
  | ok r =>
    dsimp only
    cases hsetup : Setup.load o files r with
    | error e =>
      refine Or.inl ⟨fun r' setup h => ?_, rfl, rfl⟩
      cases hregistry.symm.trans h.registry
      cases hsetup.symm.trans h.rest
    | ok setup =>
      exact Or.inr ⟨r, setup, _, loaded_of_load hregistry hsetup, announced_finish _⟩

/-! ## A path that leads upwards -/

/-- A part whose path leads back from a directory that is not there. -/
def roundabout : Registry.Document where
  metadata := ⟨"", none, none⟩
  namespaces := .empty
  elements := .ofList [("root", .short "root")]
  attributes := .empty
  identifiers := .empty
  values := .empty
  paths := .empty
  fragments := .ofList [("body", .node "root" .empty none [])]
  parts := .ofList [("c", ⟨"/q/../f.xml", "u", none⟩)]

def roundaboutText : String :=
  "[elements]\nroot = \"root\"\n[fragments.body]\nelement = \"root\"\n[parts.c]\n" ++
    "name = \"/q/../f.xml\"\ncontent_type = \"u\"\n"

def ensureRoundabout : Patch where
  metadata := ⟨"", none, none⟩
  operations := [⟨.ensurePart "c" "body", false⟩]

def ensureRoundaboutText : String :=
  "[[operations]]\nkind = \"ensurePart\"\npart_ref = \"c\"\nfragment_ref = \"body\"\n"

def inPlace : ApplyOptions where
  registry := ["r.toml"]
  patches := "p.toml"
  part := "doc.xml"
  tokens := none
  output := none
  partsDir := some "pkg"
  allOptional := false
  dryRun := false
  diff := false

def occupied : Files :=
  ⟨[(["doc.xml"], .file "<doc/>"), (["r.toml"], .file roundaboutText),
    (["p.toml"], .file ensureRoundaboutText), (["pkg"], .directory),
    (["pkg", "f.xml"], .file "<f/>")]⟩

/-- What is loaded from the files besides the registry. -/
def roundaboutSetup : Setup where
  tokens := .empty
  patches := [⟨"p.toml", ensureRoundabout⟩]
  tree := ⟨#[⟨.document, none, [1]⟩, ⟨.element ⟨.plain "doc", [], []⟩, some 0, []⟩], none⟩

theorem read_roundaboutText : Registry.Document.read? roundaboutText = some roundabout := by
  have hstatements : Toml.readStatements? roundaboutText.toList = some [.openTable ["elements"],
      .assign ["root"] (.string "root"), .openTable ["fragments", "body"],
      .assign ["element"] (.string "root"), .openTable ["parts", "c"],
      .assign ["name"] (.string "/q/../f.xml"), .assign ["content_type"] (.string "u")] :=
    Toml.readStatements?_of_below 8 (by cbv)
  have hread : Toml.read? roundaboutText =
      (Toml.readStatements? roundaboutText.toList).bind Toml.assemble := by cbv
  rw [Registry.Document.read?, hread, hstatements]
  cbv

theorem load_roundabout : Registry.load occupied inPlace.registry = .ok roundabout.resolved := by
  have hfile : occupied.read "r.toml" = .ok roundaboutText := by cbv
  have hcompile : Registry.compile roundabout = .ok roundabout.resolved := by
    rw [Registry.compile_eq_ok_iff]
    exact ⟨by cbv, rfl⟩
  have hlayer : Registry.readFile occupied "r.toml" = .ok roundabout := by
    rw [Registry.readFile, hfile]
    dsimp only
    rw [read_roundaboutText]
  have hlayers : inPlace.registry.mapM (Registry.readFile occupied) = .ok [roundabout] := by
    rw [inPlace, List.mapM_cons, hlayer]
    rfl
  have hmerged : Registry.Document.ofLayers? [roundabout] = some roundabout := rfl
  rw [Registry.load, hlayers]
  dsimp only [bind, Except.bind]
  rw [Registry.ofLayers, hmerged]
  dsimp only
  rw [hcompile]
  rfl

theorem loadFor_ensureRoundabout :
    Patch.loadFor occupied "p.toml" roundabout.resolved = .ok ensureRoundabout := by
  have hfile : occupied.read "p.toml" = .ok ensureRoundaboutText := by cbv
  have hstatements : Toml.readStatements? ensureRoundaboutText.toList = some [
      .openRow ["operations"], .assign ["kind"] (.string "ensurePart"),
      .assign ["part_ref"] (.string "c"), .assign ["fragment_ref"] (.string "body")] :=
    Toml.readStatements?_of_below 5 (by cbv)
  have hread : Toml.read? ensureRoundaboutText =
      (Toml.readStatements? ensureRoundaboutText.toList).bind Toml.assemble := by cbv
  have hload : Patch.load occupied "p.toml" = .ok ensureRoundabout := by
    rw [Patch.load, hfile]
    dsimp only
    rw [Patch.ofSource, Patch.Document.read?, hread, hstatements]
    cbv
  rw [Patch.loadFor, hload]
  cbv

theorem load_roundaboutSetup :
    Setup.load inPlace occupied roundabout.resolved = .ok roundaboutSetup := by
  have hpatches : loadPatches occupied "p.toml" roundabout.resolved =
      .ok roundaboutSetup.patches := by
    have hfound : Patch.discover occupied "p.toml" = .ok ["p.toml"] := by cbv
    rw [loadPatches, hfound]
    dsimp only [Except.mapError, bind, Except.bind]
    rw [List.mapM_cons, loadFor_ensureRoundabout]
    rfl
  have hpart : Xml.load occupied "doc.xml" = .ok roundaboutSetup.tree := by cbv
  rw [Setup.load]
  show (loadPatches occupied "p.toml" roundabout.resolved >>= _) = _
  rw [hpatches]
  show ((Xml.load occupied "doc.xml").mapError (Failure.part "doc.xml") >>= _) = _
  rw [hpart]
  rfl

def roundaboutPart : DirectoryPackage.Creation :=
  ⟨⟨"/q/../f.xml", "u", none⟩, Session.plainBody⟩

/-- The session and the package that meet the operation. -/
def roundaboutSession : Session := session inPlace roundabout.resolved roundaboutSetup

def occupiedPackage : DirectoryPackage := .ofDirectory "pkg" false occupied

theorem request_roundabout :
    roundaboutSession.request occupiedPackage.hasPart "c" "body" = .ok roundaboutPart := by
  have hfragment : roundaboutSession.fragment "body" =
      .ok ⟨"body", .node (.plain "root") [] none []⟩ := by cbv
  have hbody : Fragment.instantiateDocument ⟨"body", .node (.plain "root") [] none []⟩
      roundaboutSession.tokens roundaboutSession.registry = .ok Session.plainBody := by cbv
  exact Session.request_eq_ok_iff.2 ⟨by cbv, by cbv, _, hfragment, hbody⟩

theorem create_roundabout :
    (occupiedPackage.create roundaboutPart).1 = .ok ⟨"/q/../f.xml", none⟩ := by
  have hobstacle : roundaboutPart.part.obstacle? occupiedPackage.hasPart = none := by
    have hnew : occupiedPackage.hasPart "/q/../f.xml" = false := by cbv
    simp [PartSpec.obstacle?, roundaboutPart, hnew]
  have hseed : (occupiedPackage.seed roundaboutPart.part).1 = .ok () := rfl
  have hmade : occupiedPackage.files.makeDirectories
      (FilePath.namesOf (occupiedPackage.pathOf roundaboutPart.part.name)).dropLast =
        (.ok (), occupied.put ["pkg", "q"] .directory) := by cbv
  have hfollow : (occupied.put ["pkg", "q"] .directory).follow
      (occupiedPackage.pathOf roundaboutPart.part.name) = .ok ["pkg", "f.xml"] := by cbv
  have hthere : (occupied.put ["pkg", "q"] .directory).item? ["pkg", "f.xml"] =
      some (.file "<f/>") := by cbv
  have hstore : (occupiedPackage.store roundaboutPart.part roundaboutPart.body).1 = .ok () :=
    DirectoryPackage.store_fst_of_follow rfl hmade hfollow (by simp [hthere])
  rw [DirectoryPackage.create_fst hobstacle, hseed, hstore]
  rfl

theorem ensurePart_roundabout :
    (roundaboutSession.ensurePart occupiedPackage "c" "body").1 = .ok .applied := by
  rw [Session.ensurePart_eq, request_roundabout]
  dsimp only
  rw [create_roundabout]
  rfl

/-- What happens to the operation. -/
def roundaboutEvent : Event DirectoryPackage where
  found := occupiedPackage
  record := ⟨.ensurePart "c" "body", false⟩
  result := .ok .applied
  left := (roundaboutSession.ensurePart occupiedPackage "c" "body").2

theorem versionMismatch?_roundabout :
    roundaboutSession.versionMismatch? ensureRoundabout = none := by cbv

theorem apply_roundabout :
    roundaboutSession.apply (start inPlace occupied roundaboutSetup "pkg") ensureRoundabout =
      (.ok ⟨"", [⟨0, .ensurePart, ["c", "body"], .applied⟩]⟩,
        { start inPlace occupied roundaboutSetup "pkg" with
          package := (roundaboutSession.ensurePart occupiedPackage "c" "body").2 }) := by
  have hoperation : roundaboutSession.applyOperation (start inPlace occupied roundaboutSetup "pkg")
      0 ⟨.ensurePart "c" "body", false⟩ = _ := Session.applyOperation_ensurePart _ 0 rfl
  have hpackage : (start inPlace occupied roundaboutSetup "pkg").package = occupiedPackage := rfl
  rw [hpackage, ensurePart_roundabout] at hoperation
  have hcompact : roundaboutSetup.tree.compact.1 = roundaboutSetup.tree := by cbv
  rw [Session.apply_eq_run versionMismatch?_roundabout, ensureRoundabout,
    Session.run_cons_ok hoperation, Session.compacted]
  show (_, Workspace.mk roundaboutSetup.tree.compact.1 _ _) = _
  rw [hcompact]
  rfl

theorem tried_roundabout :
    tried roundaboutSession (start inPlace occupied roundaboutSetup "pkg")
      roundaboutSetup.patches = [ensureRoundabout] := by
  have hpatches : roundaboutSetup.patches = [⟨"p.toml", ensureRoundabout⟩] := rfl
  rw [hpatches, tried, apply_roundabout]
  rfl

theorem events_roundabout :
    events inPlace occupied roundabout.resolved roundaboutSetup = [roundaboutEvent] := by
  have hevents : events inPlace occupied roundabout.resolved roundaboutSetup =
      (roundaboutSession.eventsEach (start inPlace occupied roundaboutSetup "pkg")
        (tried roundaboutSession (start inPlace occupied roundaboutSetup "pkg")
          roundaboutSetup.patches)).flatten := rfl
  rw [hevents, tried_roundabout, Session.eventsEach_singleton, Session.eventsOf,
    versionMismatch?_roundabout]
  exact congrArg (fun events => [events].flatten)
    (Session.events_ensurePart ensurePart_roundabout 0 [])

theorem bodies_roundabout : bodies inPlace occupied roundabout.resolved roundaboutSetup =
    [("pkg/q/../f.xml", Xml.write Session.plainBody)] := by
  have hpath : occupiedPackage.pathOf "/q/../f.xml" = "pkg/q/../f.xml" := by cbv
  have hbody : roundaboutEvent.body? roundaboutSession =
      some ("pkg/q/../f.xml", Xml.write Session.plainBody) := by
    have hrequest : roundaboutSession.request roundaboutEvent.found.hasPart "c" "body" = _ :=
      request_roundabout
    have hstores : roundaboutEvent.Stores := Or.inl rfl
    rw [Session.body?_of_ensurePart rfl, if_pos hstores, hrequest]
    exact congrArg (fun path => some (path, Xml.write Session.plainBody)) hpath
  have hwrites : ¬ inPlace.dryRun = true := Bool.false_ne_true
  rw [bodies, if_neg hwrites, events_roundabout]
  exact List.filterMap_cons_some hbody

theorem inTurn_roundabout :
    inTurn inPlace occupied roundabout.resolved roundaboutSetup =
      ([.ok ⟨"", [⟨0, .ensurePart, ["c", "body"], .applied⟩]⟩], roundaboutSetup.tree) := by
  have hturn : inTurn inPlace occupied roundabout.resolved roundaboutSetup =
      ((roundaboutSession.applyEach (start inPlace occupied roundaboutSetup "pkg")
          [ensureRoundabout]).1,
        (roundaboutSession.applyEach (start inPlace occupied roundaboutSetup "pkg")
          [ensureRoundabout]).2.tree) := rfl
  rw [hturn, Session.applyEach, apply_roundabout]
  rfl

/-- The command succeeds, and puts the new part where another file was, which is not the part that
it patches. -/
theorem overwrites_roundabout :
    occupied.content? ["pkg", "f.xml"] = some "<f/>" ∧
      FilePath.placeOf (target inPlace) = ["doc.xml"] ∧
      (apply inPlace occupied).code = 0 ∧
      (apply inPlace occupied).files.content? ["pkg", "f.xml"] =
        some "<?xml version=\"1.0\" encoding=\"UTF-8\" standalone=\"yes\"?>\n<root/>" := by
  have hfound : occupied.content? ["pkg", "f.xml"] = some "<f/>" := by cbv
  have htarget : FilePath.placeOf (target inPlace) = ["doc.xml"] := by cbv
  have hplace : FilePath.placeOf "pkg/q/../f.xml" = ["pkg", "f.xml"] := by cbv
  have htext : Xml.write Session.plainBody =
      "<?xml version=\"1.0\" encoding=\"UTF-8\" standalone=\"yes\"?>\n<root/>" := rfl
  have happly : apply inPlace occupied = finish inPlace roundabout.resolved
      (registryLine roundabout.resolved ++ partHeading inPlace) roundaboutSetup
      (applySetup inPlace occupied roundabout.resolved roundaboutSetup) := by
    rw [apply, load_roundabout]
    dsimp only
    rw [load_roundaboutSetup]
  have hall : AllApplied inPlace occupied roundabout.resolved roundaboutSetup := by
    rw [AllApplied, inTurn_roundabout]
    exact fun answer hanswer => ⟨_, List.mem_singleton.1 hanswer⟩
  have hkeeps : ¬ WritesTarget inPlace occupied roundabout.resolved roundaboutSetup := by
    rintro ⟨_, _, houtput | hchanged⟩
    · cases houtput
    · rw [inTurn_roundabout] at hchanged
      exact hchanged rfl
  have hparts : (applySetup inPlace occupied roundabout.resolved roundaboutSetup).files.content?
      ["pkg", "f.xml"] = some (Xml.write Session.plainBody) := by
    rw [contents_applySetup, bodies_roundabout, Files.overwrite, List.foldl_cons, hplace]
    exact Function.update_self _ _ _
  obtain ⟨hfiles, hcode⟩ := finish_of_not_writes
    (registryLine roundabout.resolved ++ partHeading inPlace) hkeeps
  rw [happly, hfiles, ← htext]
  exact ⟨hfound, htarget, (hcode.resolve_right fun hnot => hnot.1 hall).2, hparts⟩

end Cli

end PartPatch
