import PartPatch.Proofs.Package.Directory

/-!
# One call to a package in a directory

A call is refused because something stands in its way, because the list of relationships on its
source cannot be read, or because the body cannot be written. After all that the program may still
end because no number is left for the relationship. It is told here once in which order that happens
and what is left in each case: root, mode and files, and the parts that were created.
-/

namespace PartPatch

set_option autoImplicit false

/-- Files cannot be read or written. -/
def RejectionCause.IsIo : RejectionCause → Prop
  | .directory _ | .file _ _ | .relationships (.unreadable _ _) => True
  | .relationships (.invalid _) => False

namespace PartError

/-- The list of relationships on the part's source could not be read. -/
def OfList (e : PartError) : Prop :=
  ∃ part cause, e = .rejected part (.relationships cause)

def IsIo (e : PartError) : Prop :=
  ∃ part cause, e = .rejected part cause ∧ cause.IsIo

theorem OfList.ne_overflow {e : PartError} (h : e.OfList) : e ≠ .overflow := by
  obtain ⟨part, cause, rfl⟩ := h
  exact PartError.noConfusion

theorem IsIo.ne_overflow {e : PartError} (h : e.IsIo) : e ≠ .overflow := by
  obtain ⟨part, cause, rfl, _⟩ := h
  exact PartError.noConfusion

end PartError

namespace DirectoryPackage

/-- The package in front of other files. -/
def facing (p : DirectoryPackage) (files : Files) : DirectoryPackage :=
  { p with files }

/-- Why the source's list cannot be read, if there is one that cannot. -/
def listFault? (p : DirectoryPackage) (source : String) : Option Xml.LoadError :=
  match p.readRelationships source with
  | .error e => some e
  | .ok _ => none

/-- The call has got past storing the body: the part was created, or the program ended there. -/
def Stored (answer : Except PartError CreatedPart) : Prop :=
  answer = .error .overflow ∨ ∃ created, answer = .ok created

/-- The name of the part that a call has created, if it has. -/
def answerNames : Except PartError CreatedPart → List String
  | .ok created => [created.name]
  | .error _ => []

variable {p q : DirectoryPackage} {part : PartSpec} {spec : RelationshipSpec} {body : Tree}
  {source : String} {c : Creation} {e : PartError}

/-! ## Asking for the relationships on the source -/

theorem seed_facts (p : DirectoryPackage) (part : PartSpec) :
    (p.seed part).2.root = p.root ∧ (p.seed part).2.dryRun = p.dryRun ∧
      (p.seed part).2.files = p.files ∧ (p.seed part).2.created = p.created := by
  cases h : part.relationship with
  | none => simp [seed_unrelated h]
  | some spec =>
    by_cases hold : spec.source ∈ p.seeded
    · simp [seed_seeded h hold]
    · simp [seed_unseeded h hold]

theorem listFault?_eq (p : DirectoryPackage) (source : String) : p.listFault? source =
    if p.files.isFile (p.listPath source) then
      match Xml.load p.files (p.listPath source) with
      | .error e => some e
      | .ok _ => none
    else none := by
  have hpath : p.pathOf (Relationship.partName source) = p.listPath source := rfl
  rw [listFault?, readRelationships, hpath]
  by_cases hfile : p.files.isFile (p.listPath source) = true
  · rw [if_pos hfile, if_pos hfile]
    cases Xml.load p.files (p.listPath source) with
    | error e => rfl
    | ok t => rfl
  · rw [if_neg hfile, if_neg hfile]

theorem listFault?_congr (hroot : p.root = q.root) (hfiles : p.files = q.files) (source : String) :
    p.listFault? source = q.listFault? source := by
  rw [listFault?_eq, listFault?_eq, listPath, listPath, pathOf, pathOf, hroot, hfiles]

theorem seed_fst_unseeded (h : part.relationship = some spec) (hnew : spec.source ∉ p.seeded) :
    (p.seed part).1 =
      match p.listFault? spec.source with
      | some e => .error (.rejected part.name (.relationships e))
      | none => .ok () := by
  generalize hopened : { p with seeded := spec.source :: p.seeded } = opened
  have hfault : p.listFault? spec.source = opened.listFault? spec.source := by
    subst hopened
    apply listFault?_congr
    · rfl
    · rfl
  simp only [seed, h, List.contains_iff_mem, hnew, if_false, hopened]
  rw [hfault, listFault?]
  cases opened.readRelationships spec.source with
  | error e => rfl
  | ok left => rfl

theorem seed_fst_seeded (h : ∀ source, part.relationship.map RelationshipSpec.source = some source →
    source ∈ p.seeded) : (p.seed part).1 = .ok () := by
  cases hspec : part.relationship with
  | none => simp [seed, hspec]
  | some spec =>
    have hold : spec.source ∈ p.seeded := h spec.source (by rw [hspec]; rfl)
    simp [seed, hspec, hold]

theorem seed_fst_congr (hroot : p.root = q.root) (hfiles : p.files = q.files)
    (h : ∀ source, part.relationship.map RelationshipSpec.source = some source →
      (source ∈ p.seeded ↔ source ∈ q.seeded)) : (p.seed part).1 = (q.seed part).1 := by
  cases hspec : part.relationship with
  | none => simp [seed, hspec]
  | some spec =>
    have hsource := h spec.source (by rw [hspec]; rfl)
    by_cases hold : spec.source ∈ p.seeded
    · have hold' := hsource.1 hold
      simp [seed, hspec, hold, hold']
    · rw [seed_fst_unseeded hspec hold, seed_fst_unseeded hspec (mt hsource.2 hold),
        listFault?_congr hroot hfiles]

theorem ofList_of_seed (h : (p.seed part).1 = .error e) : e.OfList := by
  cases hspec : part.relationship with
  | none =>
    rw [seed_fst_seeded (by simp [hspec])] at h
    cases h
  | some spec =>
    by_cases hold : spec.source ∈ p.seeded
    · rw [seed_fst_seeded (by simpa [hspec] using hold)] at h
      cases h
    · rw [seed_fst_unseeded hspec hold] at h
      split at h
      · cases h
        exact ⟨_, _, rfl⟩
      · cases h

/-! ## Storing the body -/

/-- A body is stored as a file, after the directories on the way to it have been made; in a
rehearsal it is not. -/
theorem store_cases (p : DirectoryPackage) (part : PartSpec) (body : Tree) :
    (p.dryRun = true ∧ p.store part body = (.ok (), p)) ∨
      p.dryRun = false ∧ ∃ made, Files.WithDirectories p.files made ∧
        ((∃ e : PartError, e.IsIo ∧ ¬ e.OfList ∧
            p.store part body = (.error e, { p with files := made })) ∨
          ∃ files, made.write (p.pathOf part.name) (Xml.write body) = .ok files ∧
            p.store part body = (.ok (), { p with files })) := by
  unfold store
  by_cases hdryRun : p.dryRun = true
  · rw [if_pos hdryRun]
    exact Or.inl ⟨hdryRun, rfl⟩
  · rw [if_neg hdryRun]
    have hmade := Files.makeDirectories_withDirectories p.files
      (FilePath.namesOf (p.pathOf part.name)).dropLast
    refine Or.inr ⟨Bool.eq_false_iff.2 hdryRun, _, hmade, ?_⟩
    dsimp only
    obtain ⟨making, made⟩ :=
      p.files.makeDirectories (FilePath.namesOf (p.pathOf part.name)).dropLast
    cases making with
    | error cause =>
      refine Or.inl ⟨_, ⟨part.name, .directory cause, rfl, trivial⟩, ?_, rfl⟩
      rintro ⟨_, _, he⟩
      cases he
    | ok _ =>
      dsimp only [Xml.save]
      cases made.write (p.pathOf part.name) (Xml.write body) with
      | error cause =>
        refine Or.inl ⟨_, ⟨part.name, .file (p.pathOf part.name) cause, rfl, trivial⟩, ?_, rfl⟩
        rintro ⟨_, _, he⟩
        cases he
      | ok files => exact Or.inr ⟨files, rfl, rfl⟩

theorem store_fst_of_follow {made : Files} {place : Place} (hwrites : p.dryRun = false)
    (hmade : p.files.makeDirectories (FilePath.namesOf (p.pathOf part.name)).dropLast =
      (.ok (), made))
    (hfollow : made.follow (p.pathOf part.name) = .ok place)
    (hfree : made.item? place ≠ some .directory) : (p.store part body).1 = .ok () := by
  have hwrite : made.write (p.pathOf part.name) (Xml.write body) = _ :=
    Files.write_eq_ok_iff.2 ⟨place, hfollow, hfree, rfl⟩
  rw [store, hwrites, if_neg Bool.false_ne_true]
  dsimp only
  rw [hmade]
  dsimp only [Xml.save]
  rw [hwrite]

theorem store_fst_congr (hroot : p.root = q.root) (hdryRun : p.dryRun = q.dryRun)
    (hfiles : p.files = q.files) (part : PartSpec) (body : Tree) :
    (p.store part body).1 = (q.store part body).1 := by
  unfold store pathOf
  rw [hroot, hdryRun, hfiles]
  split
  · rfl
  · dsimp only
    split
    · rfl
    · split
      · rfl
      · rfl

theorem store_facts (p : DirectoryPackage) (part : PartSpec) (body : Tree) :
    (p.store part body).2.root = p.root ∧ (p.store part body).2.dryRun = p.dryRun ∧
      (p.store part body).2.created = p.created := by
  rcases store_cases p part body with
    ⟨_, hstore⟩ | ⟨_, made, _, ⟨e, _, _, hstore⟩ | ⟨files, _, hstore⟩⟩
  · rw [hstore]
    exact ⟨rfl, rfl, rfl⟩
  · rw [hstore]
    exact ⟨rfl, rfl, rfl⟩
  · rw [hstore]
    exact ⟨rfl, rfl, rfl⟩

theorem not_ofList_of_store (h : (p.store part body).1 = .error e) : ¬ e.OfList := by
  rcases store_cases p part body with
    ⟨_, hstore⟩ | ⟨_, made, _, ⟨e', _, hlist, hstore⟩ | ⟨files, _, hstore⟩⟩
  · rw [hstore] at h
    cases h
  · rw [hstore] at h
    cases h
    exact hlist
  · rw [hstore] at h
    cases h

theorem ne_overflow_of_store (h : (p.store part body).1 = .error e) : e ≠ .overflow := by
  rcases store_cases p part body with
    ⟨_, hstore⟩ | ⟨_, made, _, ⟨e', hio, _, hstore⟩ | ⟨files, _, hstore⟩⟩
  · rw [hstore] at h
    cases h
  · rw [hstore] at h
    cases h
    exact hio.ne_overflow
  · rw [hstore] at h
    cases h

/-! ## The whole call -/

theorem not_ofList_of_obstacle (h : part.obstacle? p.hasPart = some e) :
    ¬ e.OfList ∧ e ≠ .overflow := by
  unfold PartSpec.obstacle? at h
  split at h
  · cases h
    refine ⟨?_, PartError.noConfusion⟩
    rintro ⟨_, _, hlist⟩
    cases hlist
  · split at h
    · cases h
    · split at h
      · cases h
      · cases h
        refine ⟨?_, PartError.noConfusion⟩
        rintro ⟨_, _, hlist⟩
        cases hlist

theorem not_stored_of_ne (h : e ≠ .overflow) : ¬ Stored (.error e) := by
  rintro (hsame | ⟨_, hok⟩)
  · exact h (Except.error.inj hsame)
  · cases hok

theorem create_of_obstacle (h : c.part.obstacle? p.hasPart = some e) :
    p.create c = (.error e, p) := by
  rw [create, createPart, h]

/-- The five ways in which a call ends. -/
theorem create_cases (p : DirectoryPackage) (c : Creation) :
    (∃ e, c.part.obstacle? p.hasPart = some e ∧ p.create c = (.error e, p)) ∨
      c.part.obstacle? p.hasPart = none ∧
        ((∃ e seeded, p.seed c.part = (.error e, seeded) ∧ p.create c = (.error e, seeded)) ∨
          ∃ seeded, p.seed c.part = (.ok (), seeded) ∧
            ((∃ e stored, seeded.store c.part c.body = (.error e, stored) ∧
                p.create c = (.error e, stored)) ∨
              ∃ stored, seeded.store c.part c.body = (.ok (), stored) ∧
                ((stored.metadata.register c.part = .error .overflow ∧
                    p.create c = (.error .overflow, stored)) ∨
                  ∃ metadata id, stored.metadata.register c.part = .ok (metadata, id) ∧
                    p.create c = (.ok ⟨c.part.name, id⟩,
                      { stored with metadata, created := stored.created ++ [c.part.name] })))) := by
  cases hobstacle : c.part.obstacle? p.hasPart with
  | some e => exact Or.inl ⟨e, rfl, create_of_obstacle hobstacle⟩
  | none =>
    refine Or.inr ⟨rfl, ?_⟩
    simp only [create, createPart, hobstacle]
    obtain ⟨seeding, seeded⟩ := p.seed c.part
    cases seeding with
    | error e => exact Or.inl ⟨e, seeded, rfl, rfl⟩
    | ok _ =>
      refine Or.inr ⟨seeded, rfl, ?_⟩
      dsimp only
      obtain ⟨storing, stored⟩ := seeded.store c.part c.body
      cases storing with
      | error e => exact Or.inl ⟨e, stored, rfl, rfl⟩
      | ok _ =>
        refine Or.inr ⟨stored, rfl, ?_⟩
        dsimp only
        rcases stored.metadata.register_cases c.part with
          ⟨_, hregister⟩ | ⟨_, metadata, id, hregister, _⟩
        · rw [hregister]
          exact Or.inl ⟨rfl, rfl⟩
        · rw [hregister]
          exact Or.inr ⟨metadata, id, rfl, rfl⟩

/-- What a call answers if nothing stands in its way: the source's list is read, then the body is
stored, then the next identifier is given. -/
theorem create_fst (h : c.part.obstacle? p.hasPart = none) : (p.create c).1 =
    (p.seed c.part).1 >>= fun _ => (p.store c.part c.body).1 >>= fun _ =>
      ((p.seed c.part).2.metadata.identifier c.part).map (CreatedPart.mk c.part.name) := by
  obtain ⟨hroot, hdryRun, hfiles, _⟩ := seed_facts p c.part
  have hstore := store_fst_congr hroot hdryRun hfiles c.part c.body
  rcases create_cases p c with ⟨e, hobstacle, _⟩ | ⟨_, ⟨e, seeded, hseed, hcreate⟩ |
    ⟨seeded, hseed, ⟨e, stored, hstored, hcreate⟩ | ⟨stored, hstored, hlast⟩⟩⟩
  · rw [h] at hobstacle
    cases hobstacle
  · rw [hcreate, hseed]
    rfl
  · rw [hseed, hstored] at hstore
    rw [hcreate, hseed, ← hstore]
    rfl
  · rw [hseed, hstored] at hstore
    have hmetadata : stored.metadata = seeded.metadata := by
      have hkeeps := (store_keeps seeded c.part c.body).1
      rw [hstored] at hkeeps
      exact hkeeps
    rw [hseed, ← hstore, ← hmetadata, ← PackageMetadata.snd_register]
    rcases hlast with ⟨hregister, hcreate⟩ | ⟨metadata, id, hregister, hcreate⟩
    · rw [hcreate, hregister]
      rfl
    · rw [hcreate, hregister]
      rfl

/-- What a call leaves of the package besides its files and what is recorded on sources. -/
theorem create_facts (p : DirectoryPackage) (c : Creation) :
    (p.create c).2.root = p.root ∧ (p.create c).2.dryRun = p.dryRun ∧
      (p.create c).2.created = p.created ++ answerNames (p.create c).1 := by
  have hseeding := seed_facts p c.part
  rcases create_cases p c with ⟨e, _, hcreate⟩ | ⟨_, ⟨e, seeded, hseed, hcreate⟩ |
    ⟨seeded, hseed, hrest⟩⟩
  · rw [hcreate]
    exact ⟨rfl, rfl, (List.append_nil _).symm⟩
  · rw [hseed] at hseeding
    obtain ⟨hroot, hdryRun, _, hcreated⟩ := hseeding
    rw [hcreate]
    exact ⟨hroot, hdryRun, hcreated.trans (List.append_nil _).symm⟩
  · rw [hseed] at hseeding
    obtain ⟨hroot, hdryRun, _, hcreated⟩ := hseeding
    have hstoring := store_facts seeded c.part c.body
    rcases hrest with ⟨e, stored, hstored, hcreate⟩ | ⟨stored, hstored, hlast⟩
    · rw [hstored] at hstoring
      obtain ⟨hroot', hdryRun', hcreated'⟩ := hstoring
      rw [hcreate]
      exact ⟨hroot'.trans hroot, hdryRun'.trans hdryRun,
        (hcreated'.trans hcreated).trans (List.append_nil _).symm⟩
    · rw [hstored] at hstoring
      obtain ⟨hroot', hdryRun', hcreated'⟩ := hstoring
      rcases hlast with ⟨_, hcreate⟩ | ⟨metadata, id, _, hcreate⟩
      · rw [hcreate]
        exact ⟨hroot'.trans hroot, hdryRun'.trans hdryRun,
          (hcreated'.trans hcreated).trans (List.append_nil _).symm⟩
      · rw [hcreate]
        exact ⟨hroot'.trans hroot, hdryRun'.trans hdryRun,
          congrArg (· ++ [c.part.name]) (hcreated'.trans hcreated)⟩

/-- What a call does to the files: a body that was stored is in a file below directories that may be
new, and besides that there may be new directories, except in a rehearsal. -/
theorem files_create (p : DirectoryPackage) (c : Creation) :
    (Stored (p.create c).1 ∧ p.dryRun = false ∧
        ∃ reached, Files.WithDirectories p.files reached ∧
          reached.write (p.pathOf c.part.name) (Xml.write c.body) = .ok (p.create c).2.files) ∨
      (¬ Stored (p.create c).1 ∨ p.dryRun = true) ∧
        Files.WithDirectories p.files (p.create c).2.files ∧
        (p.dryRun = true → (p.create c).2.files = p.files) := by
  have hseeding := seed_facts p c.part
  rcases create_cases p c with ⟨e, hobstacle, hcreate⟩ | ⟨_, ⟨e, seeded, hseed, hcreate⟩ |
    ⟨seeded, hseed, hrest⟩⟩
  · rw [hcreate]
    exact Or.inr ⟨Or.inl (not_stored_of_ne (not_ofList_of_obstacle hobstacle).2), .refl p.files,
      fun _ => rfl⟩
  · have hlist := ofList_of_seed (congrArg Prod.fst hseed)
    rw [hseed] at hseeding
    rw [hcreate, hseeding.2.2.1]
    exact Or.inr ⟨Or.inl (not_stored_of_ne hlist.ne_overflow), .refl p.files, fun _ => rfl⟩
  · rw [hseed] at hseeding
    obtain ⟨hroot, hdryRun, hfiles, _⟩ := hseeding
    have hpath : seeded.pathOf c.part.name = p.pathOf c.part.name := by rw [pathOf, pathOf, hroot]
    rcases store_cases seeded c.part c.body with
      ⟨hrehearsed, hstore⟩ |
        ⟨hwritten, reached, hreached, ⟨e, hio, _, hstore⟩ | ⟨files, hwrite, hstore⟩⟩
    · rcases hrest with ⟨e, stored, hstored, hcreate⟩ | ⟨stored, hstored, hlast⟩
      · cases hstored.symm.trans hstore
      · cases hstored.symm.trans hstore
        have hkept : (p.create c).2.files = seeded.files := by
          rcases hlast with ⟨_, hcreate⟩ | ⟨metadata, id, _, hcreate⟩
          · rw [hcreate]
          · rw [hcreate]
        rw [hkept, hfiles]
        exact Or.inr ⟨Or.inr (hdryRun ▸ hrehearsed), .refl _, fun _ => rfl⟩
    · have hoff : p.dryRun = false := hdryRun ▸ hwritten
      rcases hrest with ⟨e, stored, hstored, hcreate⟩ | ⟨stored, hstored, _⟩
      · cases hstored.symm.trans hstore
        rw [hcreate]
        refine Or.inr ⟨Or.inl (not_stored_of_ne hio.ne_overflow), hfiles ▸ hreached, fun hon => ?_⟩
        rw [hoff] at hon
        cases hon
      · cases hstored.symm.trans hstore
    · have hoff : p.dryRun = false := hdryRun ▸ hwritten
      rcases hrest with ⟨e, stored, hstored, hcreate⟩ | ⟨stored, hstored, hlast⟩
      · cases hstored.symm.trans hstore
      · cases hstored.symm.trans hstore
        rcases hlast with ⟨_, hcreate⟩ | ⟨metadata, id, _, hcreate⟩
        · rw [hcreate]
          exact Or.inl ⟨Or.inl rfl, hoff, reached, hfiles ▸ hreached, hpath ▸ hwrite⟩
        · rw [hcreate]
          exact Or.inl ⟨Or.inr ⟨_, rfl⟩, hoff, reached, hfiles ▸ hreached, hpath ▸ hwrite⟩

theorem relationshipsOn_create_of_not_asks (h : ¬ p.Asks source c) :
    (p.create c).2.relationshipsOn source = p.relationshipsOn source := by
  rw [relationshipsOn_create, if_neg fun hboth => h hboth.1, onSource_givenTo_of_not_asks h,
    List.append_nil]

end DirectoryPackage

end PartPatch
