import PartPatch.Proofs.Package.Call

/-!
# Rehearsals

A package that only rehearses looks at the files as they were at first, and at the names of the
parts that it would have created. It answers as the package does that writes them, unless a file of
the run is met under another name than that of the part, or by way of a directory of the run, or no
number is left for a relationship in one of the two only.
-/

namespace PartPatch

set_option autoImplicit false

namespace DirectoryPackage

/-- The first package writes parts, and the second has only recorded them. -/
structure Rehearses (first : Files) (p q : DirectoryPackage) : Prop where
  root : p.root = q.root
  writes : p.dryRun = false
  records : q.dryRun = true
  created : p.created = q.created
  seeded : ∀ source, source ∈ p.seeded ↔ source ∈ q.seeded
  files : q.files = first
  kept : Files.Keeps first p.files

/-- What a call comes to, whatever identifier it is given. -/
def outcome (p : DirectoryPackage) (c : Creation) : Except PartError Unit :=
  (p.create c).1.map fun _ => ()

/-- What a call comes to if the body can be written and a number is left. -/
def promise (p : DirectoryPackage) (c : Creation) : Except PartError Unit :=
  match c.part.obstacle? p.hasPart with
  | some e => .error e
  | none => (p.seed c.part).1

variable {first : Files} {p q : DirectoryPackage} {c : Creation} {name : String}

theorem outcome_eq (p : DirectoryPackage) (c : Creation) : p.outcome c =
    match c.part.obstacle? p.hasPart with
    | some e => .error e
    | none => (p.seed c.part).1 >>= fun _ => (p.store c.part c.body).1 >>= fun _ =>
        ((p.seed c.part).2.metadata.identifier c.part).map fun _ => () := by
  rw [outcome]
  cases h : c.part.obstacle? p.hasPart with
  | some e =>
    rw [create_of_obstacle h]
    rfl
  | none =>
    rw [create_fst h]
    cases (p.seed c.part).1 with
    | error e => rfl
    | ok _ =>
      cases (p.store c.part c.body).1 with
      | error e => rfl
      | ok _ =>
        cases (p.seed c.part).2.metadata.identifier c.part with
        | error e => rfl
        | ok id => rfl

/-- A call that gets past storing the body keeps its promise, unless no number is left. -/
theorem outcome_of_store (hobstacle : c.part.obstacle? p.hasPart = none)
    (hseed : (p.seed c.part).1 = .ok ()) (hstore : (p.store c.part c.body).1 = .ok ())
    (hroom : p.outcome c ≠ .error .overflow) : p.outcome c = .ok () := by
  have houtcome := outcome_eq p c
  rw [hobstacle] at houtcome
  dsimp only at houtcome
  rw [hseed, hstore] at houtcome
  cases hid : (p.seed c.part).2.metadata.identifier c.part with
  | error e =>
    rw [hid, PackageMetadata.eq_overflow_of_identifier hid] at houtcome
    exact absurd houtcome hroom
  | ok id =>
    rw [hid] at houtcome
    exact houtcome

/-- A call keeps its promise, except that the body cannot be written or no number is left. -/
theorem outcome_eq_promise (hio : ∀ e, p.outcome c = .error e → ¬ e.IsIo)
    (hroom : p.outcome c ≠ .error .overflow) : p.outcome c = p.promise c := by
  have houtcome := outcome_eq p c
  rw [promise]
  cases hobstacle : c.part.obstacle? p.hasPart with
  | some e =>
    rw [hobstacle] at houtcome
    exact houtcome
  | none =>
    rw [hobstacle] at houtcome
    cases hseed : (p.seed c.part).1 with
    | error e =>
      rw [hseed] at houtcome
      exact houtcome
    | ok _ =>
      rcases store_cases p c.part c.body with
        ⟨_, hstore⟩ | ⟨_, made, _, ⟨e, hbody, _, hstore⟩ | ⟨files, _, hstore⟩⟩
      · exact outcome_of_store hobstacle hseed (by rw [hstore]) hroom
      · rw [hseed, hstore] at houtcome
        exact absurd hbody (hio e houtcome)
      · exact outcome_of_store hobstacle hseed (by rw [hstore]) hroom

theorem outcome_of_dryRun (h : p.dryRun = true) (hroom : p.outcome c ≠ .error .overflow) :
    p.outcome c = p.promise c := by
  have houtcome := outcome_eq p c
  rw [promise]
  cases hobstacle : c.part.obstacle? p.hasPart with
  | some e =>
    rw [hobstacle] at houtcome
    exact houtcome
  | none =>
    rw [hobstacle] at houtcome
    cases hseed : (p.seed c.part).1 with
    | error e =>
      rw [hseed] at houtcome
      exact houtcome
    | ok _ => exact outcome_of_store hobstacle hseed (by rw [store, if_pos h]) hroom

/-- Before the number the body is stored, and before that the source's list has been read. -/
theorem promise_of_overflow (h : p.outcome c = .error .overflow) : p.promise c = .ok () := by
  rw [outcome_eq] at h
  rw [promise]
  split at h
  · next e hobstacle =>
    cases h
    exact absurd rfl (not_ofList_of_obstacle hobstacle).2
  · cases hseed : (p.seed c.part).1 with
    | error e =>
      rw [hseed] at h
      cases h
      exact absurd rfl (ofList_of_seed hseed).ne_overflow
    | ok _ => rfl

/-- A rehearsed call comes to the same as the one that writes if both promise the same and a number
is left in both or in neither. -/
theorem outcome_eq_iff (hdryRun : q.dryRun = true) (hio : ∀ e, p.outcome c = .error e → ¬ e.IsIo) :
    p.outcome c = q.outcome c ↔ p.promise c = q.promise c ∧
      (p.outcome c = .error .overflow ↔ q.outcome c = .error .overflow) := by
  by_cases hp : p.outcome c = .error .overflow
  · by_cases hq : q.outcome c = .error .overflow
    · exact iff_of_true (hp.trans hq.symm)
        ⟨(promise_of_overflow hp).trans (promise_of_overflow hq).symm, iff_of_true hp hq⟩
    · exact iff_of_false (fun h => hq (h ▸ hp)) fun h => hq (h.2.1 hp)
  · by_cases hq : q.outcome c = .error .overflow
    · exact iff_of_false (fun h => hp (h ▸ hq)) fun h => hp (h.2.2 hq)
    · rw [and_iff_left (iff_of_false hp hq), outcome_eq_promise hio hp,
        outcome_of_dryRun hdryRun hq]

theorem answerNames_create (p : DirectoryPackage) (c : Creation) :
    answerNames (p.create c).1 =
      match p.outcome c with
      | .ok _ => [c.part.name]
      | .error _ => [] := by
  rw [outcome]
  rcases create_cases p c with ⟨e, _, hcreate⟩ | ⟨_, ⟨e, seeded, _, hcreate⟩ |
    ⟨seeded, _, ⟨e, stored, _, hcreate⟩ | ⟨stored, _, ⟨_, hcreate⟩ | ⟨_, _, _, hcreate⟩⟩⟩⟩
  · rw [hcreate]
    rfl
  · rw [hcreate]
    rfl
  · rw [hcreate]
    rfl
  · rw [hcreate]
    rfl
  · rw [hcreate]
    rfl

theorem obstacle?_eq_none_iff : c.part.obstacle? p.hasPart = none ↔
    ∀ e, p.promise c = .error e → e.OfList := by
  rw [promise]
  cases h : c.part.obstacle? p.hasPart with
  | none => exact iff_of_true rfl fun e => ofList_of_seed
  | some e => exact iff_of_false (fun hnone => nomatch hnone) fun hall =>
      (not_ofList_of_obstacle h).1 (hall e rfl)

namespace Rehearses

/-- The step: packages whose calls come to the same rehearse each other still. -/
theorem create (h : Rehearses first p q) (hio : ∀ e, p.outcome c = .error e → ¬ e.IsIo)
    (hsame : p.outcome c = q.outcome c) : Rehearses first (p.create c).2 (q.create c).2 := by
  have hpromise := ((outcome_eq_iff h.records hio).1 hsame).1
  obtain ⟨hroot, hdryRun, hcreated⟩ := create_facts p c
  obtain ⟨hroot', hdryRun', hcreated'⟩ := create_facts q c
  constructor
  · rw [hroot, hroot', h.root]
  · rw [hdryRun, h.writes]
  · rw [hdryRun', h.records]
  · rw [hcreated, hcreated', h.created, answerNames_create, answerNames_create, hsame]
  · intro source
    rw [mem_seeded_create, mem_seeded_create, h.seeded source, Asks, Asks, obstacle?_eq_none_iff,
      obstacle?_eq_none_iff, hpromise]
  · rcases files_create q c with ⟨_, hoff, _⟩ | ⟨_, _, hfiles⟩
    · rw [h.records] at hoff
      cases hoff
    · rw [hfiles h.records, h.files]
  · rcases files_create p c with ⟨_, _, reached, hreached, hwrite⟩ | ⟨_, hfiles, _⟩
    · exact h.kept.trans ((Files.Keeps.of_withDirectories hreached).trans (.of_write hwrite))
    · exact h.kept.trans (.of_withDirectories hfiles)

end Rehearses

end DirectoryPackage

end PartPatch
