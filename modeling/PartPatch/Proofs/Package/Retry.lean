import PartPatch.Proofs.Package.Call

/-!
# Calls that fail and are made again

A call that fails may have asked for the relationships on its source, and what it was told is kept:
the source is not asked again. The call made again fails in the same way unless it was the source's
list that could not be read. Later calls are given the identifiers that they would have been given
if the first one to ask for the source would have been told the same. No call comes after one that
ends in an overflow.
-/

namespace PartPatch

set_option autoImplicit false

open PackageMetadata (Full greatest nextId)

namespace DirectoryPackage

/-- A creation with the files that it finds. Anything may have happened to them since the last. -/
structure Attempt where
  files : Files
  creation : Creation

def attempt (p : DirectoryPackage) (x : Attempt) :
    Except PartError CreatedPart × DirectoryPackage :=
  (p.facing x.files).create x.creation

/-- The package after the attempts, whether they failed or not. -/
def served (p : DirectoryPackage) (xs : List Attempt) : DirectoryPackage :=
  xs.foldl (fun p x => (p.attempt x).2) p

/-- The identifier that a call was given. -/
def answerId : Except PartError CreatedPart → Option String
  | .ok created => created.relationshipId
  | .error _ => none

/-- The identifiers that the attempts are given, one after the other. After an overflow none is. -/
def ids (p : DirectoryPackage) : List Attempt → List (Option String)
  | [] => []
  | x :: xs => answerId (p.attempt x).1 ::
      if (p.attempt x).1 = .error .overflow then xs.map fun _ => none
      else (p.attempt x).2.ids xs

/-- An identifier that was given would have been given as well. -/
def Warrants (would did : Option String) : Prop :=
  ∀ id, did = some id → would = some id

/-- The attempt asks for the relationships on the source. -/
def AsksIn (p : DirectoryPackage) (source : String) (x : Attempt) : Prop :=
  (p.facing x.files).Asks source x.creation

instance (p : DirectoryPackage) (source : String) (x : Attempt) : Decidable (p.AsksIn source x) :=
  inferInstanceAs (Decidable (Asks _ _ _))

/-- What the source's list has when the attempt is made. -/
def listedIn (p : DirectoryPackage) (source : String) (x : Attempt) : List Relationship :=
  (p.facing x.files).listed source

/-- What becomes of storing the body of the part when the attempt is made. -/
def storing (p : DirectoryPackage) (x : Attempt) : Except PartError Unit :=
  ((p.facing x.files).store x.creation.part x.creation.body).1

/-- The next number on the source is asked for: an attempt that asks for the source has stored its
body, and none before it has ended in an overflow. -/
def Draws (source : String) (p : DirectoryPackage) : List Attempt → Prop
  | [] => False
  | x :: xs => p.AsksIn source x ∧ Stored (p.attempt x).1 ∨
      (p.attempt x).1 ≠ .error .overflow ∧ (p.attempt x).2.Draws source xs

/-- It makes no difference to the attempts that the source's relationships are held already, unless
for the worse, because no number is left after them. The first attempt to ask for them would have
been able to, if it comes to anything, and would have been told the same greatest number, if a
number on the source is asked for from then on. -/
def Unharmed (source : String) (held : List Relationship) (p : DirectoryPackage) :
    List Attempt → Prop
  | [] => True
  | x :: xs =>
    if p.AsksIn source x then
      Full held ∨ ((p.facing x.files).listFault? source = none ∨ ∃ e, p.storing x = .error e) ∧
        (greatest held = greatest (p.listedIn source x) ∨ ¬ p.Draws source (x :: xs))
    else (p.attempt x).1 = .error .overflow ∨ (p.attempt x).2.Unharmed source held xs

variable {p q : DirectoryPackage} {part : PartSpec} {body : Tree} {source : String} {c : Creation}
  {x : Attempt} {xs : List Attempt} {held : List Relationship}

/-! ## Packages that hold the same -/

/-- Two packages differ only in what they hold of sources that are not among the given ones. -/
structure Alike (among : String → Prop) (p q : DirectoryPackage) : Prop where
  root : p.root = q.root
  dryRun : p.dryRun = q.dryRun
  created : p.created = q.created
  seeded : ∀ source, among source → (source ∈ p.seeded ↔ source ∈ q.seeded)
  greatest : ∀ source, among source →
    greatest (p.relationshipsOn source) = greatest (q.relationshipsOn source)

namespace Alike

variable {among : String → Prop}

theorem mono (h : Alike among p q) {fewer : String → Prop} (hle : ∀ source, fewer source →
    among source) : Alike fewer p q where
  root := h.root
  dryRun := h.dryRun
  created := h.created
  seeded source hsource := h.seeded source (hle source hsource)
  greatest source hsource := h.greatest source (hle source hsource)

theorem hasPart (h : Alike among p q) (hfiles : p.files = q.files) : p.hasPart = q.hasPart := by
  funext name
  rw [DirectoryPackage.hasPart, DirectoryPackage.hasPart, pathOf, pathOf, h.root, h.created, hfiles]

theorem listed (h : Alike among p q) (hfiles : p.files = q.files) (source : String) :
    p.listed source = q.listed source := by
  rw [DirectoryPackage.listed, DirectoryPackage.listed, listPath, listPath, pathOf, pathOf, h.root,
    hfiles]

theorem asks_iff (h : Alike among p q) (hfiles : p.files = q.files) :
    p.Asks source c ↔ q.Asks source c := by
  rw [Asks, Asks, h.hasPart hfiles]

/-- The step: a call that asks for a source among the given ones, if for any, is answered alike, and
leaves the packages alike. -/
theorem create (h : Alike among p q) (hfiles : p.files = q.files)
    (hasks : ∀ source, p.Asks source c → among source) :
    (p.create c).1 = (q.create c).1 ∧ Alike among (p.create c).2 (q.create c).2 := by
  have hobstacle : c.part.obstacle? p.hasPart = c.part.obstacle? q.hasPart := by
    rw [h.hasPart hfiles]
  have hanswer : (p.create c).1 = (q.create c).1 := by
    cases hnone : c.part.obstacle? p.hasPart with
    | some e => rw [create_of_obstacle hnone, create_of_obstacle (hobstacle ▸ hnone)]
    | none =>
      rw [create_fst hnone, create_fst (hobstacle ▸ hnone),
        seed_fst_congr h.root hfiles fun source hsource =>
          h.seeded source (hasks source ⟨hnone, hsource⟩),
        store_fst_congr h.root h.dryRun hfiles, PackageMetadata.identifier,
        PackageMetadata.identifier]
      cases hspec : c.part.relationship with
      | none => rfl
      | some spec =>
        have hamong : among spec.source := hasks spec.source ⟨hnone, by rw [hspec]; rfl⟩
        have hnext : nextId ((p.seed c.part).2.relationshipsOn spec.source) =
            nextId ((q.seed c.part).2.relationshipsOn spec.source) := by
          rw [PackageMetadata.nextId_inj, relationshipsOn_seed, relationshipsOn_seed,
            h.listed hfiles]
          simp only [h.seeded _ hamong]
          split
          · rw [PackageMetadata.greatest_foldl_adjoin, PackageMetadata.greatest_foldl_adjoin,
              h.greatest _ hamong]
          · exact h.greatest _ hamong
        rw [relationshipsOn, relationshipsOn] at hnext
        simp only [hnext]
  refine ⟨hanswer, ?_⟩
  obtain ⟨hroot, hdryRun, hcreated⟩ := create_facts p c
  obtain ⟨hroot', hdryRun', hcreated'⟩ := create_facts q c
  have hgiven : p.givenTo c = q.givenTo c := by rw [givenTo, givenTo, hanswer]
  constructor
  · rw [hroot, hroot', h.root]
  · rw [hdryRun, hdryRun', h.dryRun]
  · rw [hcreated, hcreated', h.created, hanswer]
  · intro source hsource
    rw [mem_seeded_create, mem_seeded_create, h.seeded source hsource, h.asks_iff hfiles]
  · intro source hsource
    rw [relationshipsOn_create, relationshipsOn_create, PackageMetadata.greatest_append,
      PackageMetadata.greatest_append, hgiven, h.listed hfiles]
    simp only [h.asks_iff hfiles, h.seeded source hsource]
    split
    · rw [PackageMetadata.greatest_foldl_adjoin, PackageMetadata.greatest_foldl_adjoin,
        h.greatest source hsource]
    · rw [h.greatest source hsource]

/-- A call that asks for none of the given sources leaves the packages alike if it creates the part
in both of them or in neither. -/
theorem create_elsewhere (h : Alike among p q) (hfiles : p.files = q.files)
    (hasks : ∀ source, p.Asks source c → ¬ among source)
    (hcreated : (p.create c).2.created = (q.create c).2.created) :
    Alike among (p.create c).2 (q.create c).2 := by
  obtain ⟨hroot, hdryRun, _⟩ := create_facts p c
  obtain ⟨hroot', hdryRun', _⟩ := create_facts q c
  constructor
  · rw [hroot, hroot', h.root]
  · rw [hdryRun, hdryRun', h.dryRun]
  · exact hcreated
  · intro source hsource
    rw [mem_seeded_create, mem_seeded_create, h.seeded source hsource, h.asks_iff hfiles]
  · intro source hsource
    have hnot : ¬ p.Asks source c := fun hask => hasks source hask hsource
    have hnot' : ¬ q.Asks source c := mt (h.asks_iff hfiles).2 hnot
    rw [relationshipsOn_create_of_not_asks hnot, relationshipsOn_create_of_not_asks hnot']
    exact h.greatest source hsource

end Alike

theorem Alike.facing {among : String → Prop} (h : Alike among p q) (files : Files) :
    Alike among (p.facing files) (q.facing files) :=
  ⟨h.root, h.dryRun, h.created, h.seeded, h.greatest⟩

theorem Alike.asksIn_iff {among : String → Prop} (h : Alike among p q) :
    p.AsksIn source x ↔ q.AsksIn source x :=
  (h.facing x.files).asks_iff rfl

theorem Alike.storing {among : String → Prop} (h : Alike among p q) (x : Attempt) :
    p.storing x = q.storing x :=
  store_fst_congr (p := p.facing x.files) (q := q.facing x.files) h.root h.dryRun rfl _ _

theorem Alike.attempt {among : String → Prop} (h : Alike among p q)
    (hasks : ∀ source, p.AsksIn source x → among source) :
    (p.attempt x).1 = (q.attempt x).1 ∧ Alike among (p.attempt x).2 (q.attempt x).2 :=
  (h.facing x.files).create rfl hasks

/-- Packages that are alike in all sources give the same identifiers. -/
theorem Alike.ids (h : Alike (fun _ => True) p q) (xs : List Attempt) : p.ids xs = q.ids xs := by
  induction xs generalizing p q with
  | nil => rfl
  | cons x xs ih =>
    obtain ⟨hanswer, hnext⟩ := h.attempt (x := x) fun _ _ => trivial
    rw [DirectoryPackage.ids, DirectoryPackage.ids, hanswer, ih hnext]

/-! ## One attempt -/

theorem mem_seeded_attempt :
    source ∈ (p.attempt x).2.seeded ↔ source ∈ p.seeded ∨ p.AsksIn source x :=
  mem_seeded_create

theorem relationshipsOn_attempt : (p.attempt x).2.relationshipsOn source =
    (if p.AsksIn source x ∧ source ∉ p.seeded then
      (p.listedIn source x).foldl Relationship.adjoin (p.relationshipsOn source)
    else p.relationshipsOn source) ++ onSource source ((p.facing x.files).givenTo x.creation) :=
  relationshipsOn_create

theorem asksIn_unique {other : String} (h : p.AsksIn source x) (h' : p.AsksIn other x) :
    source = other :=
  Option.some.inj (h.2.symm.trans h'.2)

/-- What an attempt is answered that has stored its body: the next identifier on its source. -/
def answerOn (x : Attempt) (existing : List Relationship) : Except PartError CreatedPart :=
  (nextId existing).map fun id => ⟨x.creation.part.name, some id⟩

theorem stored_answerOn (x : Attempt) (existing : List Relationship) :
    Stored (answerOn x existing) := by
  unfold answerOn
  cases hnext : nextId existing with
  | error e =>
    rw [(PackageMetadata.nextId_eq_error_iff.1 hnext).2]
    exact Or.inl rfl
  | ok id => exact Or.inr ⟨_, rfl⟩

theorem answerOn_of_full {existing : List Relationship} (h : Full existing) :
    answerOn x existing = .error .overflow := by
  rw [answerOn, PackageMetadata.nextId_eq_error_iff.2 ⟨h, rfl⟩]
  rfl

theorem answerOn_of_not_full {existing : List Relationship} (h : ¬ Full existing) :
    ∃ id, nextId existing = .ok id ∧
      answerOn x existing = .ok ⟨x.creation.part.name, some id⟩ := by
  have hnext := PackageMetadata.nextId_eq_ok_iff.2 ⟨h, rfl⟩
  refine ⟨_, hnext, ?_⟩
  rw [answerOn, hnext]
  rfl

theorem answerId_answerOn {existing : List Relationship} {id : String} :
    answerId (answerOn x existing) = some id ↔ nextId existing = .ok id := by
  unfold answerOn
  cases nextId existing with
  | error e => exact iff_of_false (fun h => nomatch h) fun h => nomatch h
  | ok next => simp [Except.map, answerId]

/-- Once the source has been asked, the body is stored and the next identifier on it is given. -/
theorem attempt_fst_of_seeded (hasks : p.AsksIn source x) (hold : source ∈ p.seeded) :
    (p.attempt x).1 = p.storing x >>= fun _ => answerOn x (p.relationshipsOn source) := by
  obtain ⟨hnone, hsource⟩ := hasks
  obtain ⟨spec, hspec, rfl⟩ := Option.map_eq_some_iff.1 hsource
  have hseed : ((p.facing x.files).seed x.creation.part).1 = .ok () := by
    apply seed_fst_seeded
    intro other hother
    rw [hsource, Option.some_inj] at hother
    exact hother ▸ hold
  rw [attempt, create_fst hnone, hseed, PackageMetadata.map_identifier hspec,
    seed_seeded (p := p.facing x.files) hspec hold]
  rfl

/-- The first attempt to ask for the source reads its list before that. -/
theorem attempt_fst_of_unseeded (hasks : p.AsksIn source x) (hnew : source ∉ p.seeded) :
    (p.attempt x).1 =
      match (p.facing x.files).listFault? source with
      | some e => .error (.rejected x.creation.part.name (.relationships e))
      | none => p.storing x >>= fun _ => answerOn x
          ((p.listedIn source x).foldl Relationship.adjoin (p.relationshipsOn source)) := by
  obtain ⟨hnone, hsource⟩ := hasks
  obtain ⟨spec, hspec, rfl⟩ := Option.map_eq_some_iff.1 hsource
  have hon : ((p.facing x.files).seed x.creation.part).2.metadata.relationshipsOn spec.source =
      (p.listedIn spec.source x).foldl Relationship.adjoin (p.relationshipsOn spec.source) :=
    relationshipsOn_seed.trans (if_pos ⟨hsource, hnew⟩)
  rw [attempt, create_fst hnone, seed_fst_unseeded (p := p.facing x.files) hspec hnew,
    PackageMetadata.map_identifier hspec, hon]
  cases (p.facing x.files).listFault? spec.source with
  | some e => rfl
  | none => rfl

/-- An attempt whose body cannot be stored fails for this reason, or for one that comes before. -/
theorem attempt_of_not_stored (hasks : p.AsksIn source x) {e : PartError}
    (hstore : p.storing x = .error e) :
    ∃ e', (p.attempt x).1 = .error e' ∧ e' ≠ .overflow := by
  have hanswer := create_fst hasks.1
  cases hseed : ((p.facing x.files).seed x.creation.part).1 with
  | error e' =>
    rw [hseed] at hanswer
    exact ⟨e', hanswer, (ofList_of_seed hseed).ne_overflow⟩
  | ok _ =>
    have hstore' : ((p.facing x.files).store x.creation.part x.creation.body).1 = .error e :=
      hstore
    rw [hseed, hstore'] at hanswer
    exact ⟨e, hanswer, ne_overflow_of_store hstore'⟩

theorem onSource_givenTo_of_error {e : PartError} (h : (p.attempt x).1 = .error e) :
    onSource source ((p.facing x.files).givenTo x.creation) = [] := by
  rw [givenTo_of_error h]
  rfl

/-- What is held of a source that has been asked stays as it is in an attempt that fails. -/
theorem relationshipsOn_attempt_of_error {e : PartError} (h : (p.attempt x).1 = .error e)
    (hold : source ∈ p.seeded) :
    (p.attempt x).2.relationshipsOn source = p.relationshipsOn source := by
  rw [relationshipsOn_attempt, if_neg fun hboth => hboth.2 hold, onSource_givenTo_of_error h,
    List.append_nil]

theorem attempt_ne_overflow {e : PartError} (h : (p.attempt x).1 = .error e)
    (hne : e ≠ .overflow) : (p.attempt x).1 ≠ .error .overflow := by
  rw [h]
  exact mt Except.error.inj hne

theorem ids_of_overflow (h : (p.attempt x).1 = .error .overflow) :
    p.ids (x :: xs) = none :: xs.map fun _ => none := by
  rw [ids, if_pos h, h]
  rfl

theorem ids_of_ne_overflow (h : (p.attempt x).1 ≠ .error .overflow) :
    p.ids (x :: xs) = answerId (p.attempt x).1 :: (p.attempt x).2.ids xs := by
  rw [ids, if_neg h]

theorem length_ids (p : DirectoryPackage) (xs : List Attempt) : (p.ids xs).length = xs.length := by
  induction xs generalizing p with
  | nil => rfl
  | cons x xs ih =>
    rw [ids, List.length_cons, List.length_cons]
    split
    · rw [List.length_map]
    · rw [ih]

theorem not_draws_of_overflow (hasks : ¬ p.AsksIn source x)
    (h : (p.attempt x).1 = .error .overflow) : ¬ p.Draws source (x :: xs) := by
  rintro (hdraws | hdraws)
  · exact hasks hdraws.1
  · exact hdraws.1 h

/-- An attempt that gets no number leaves it to those after it to ask for one. -/
theorem draws_cons_iff (h : ¬ (p.AsksIn source x ∧ Stored (p.attempt x).1))
    (hgoes : (p.attempt x).1 ≠ .error .overflow) :
    p.Draws source (x :: xs) ↔ (p.attempt x).2.Draws source xs := by
  rw [Draws, or_iff_right h]
  exact and_iff_right hgoes

theorem Warrants.refl (id : Option String) : Warrants id id :=
  fun _ h => h

theorem warrants_none (would : Option String) : Warrants would none := by
  intro id h
  cases h

theorem warrants_some_iff {would : Option String} {id : String} :
    Warrants would (some id) ↔ would = some id :=
  ⟨fun h => h id rfl, fun h _ e => e ▸ h⟩

theorem forall₂_warrants_refl (given : List (Option String)) :
    List.Forall₂ Warrants given given :=
  List.forall₂_same.2 fun id _ => Warrants.refl id

/-- After an overflow nothing is given that would have to be warranted. -/
theorem forall₂_warrants_of_overflow (h : (q.attempt x).1 = .error .overflow) :
    List.Forall₂ Warrants (p.ids (x :: xs)) (q.ids (x :: xs)) := by
  have hnone : q.ids (x :: xs) = (x :: xs).map fun _ => none := ids_of_overflow h
  rw [hnone]
  refine List.forall₂_iff_get.2 ⟨by rw [length_ids, List.length_map], fun i _ _ => ?_⟩
  rw [List.get_eq_getElem, List.get_eq_getElem, List.getElem_map]
  exact warrants_none _

/-! ## A source that one of two packages has asked already -/

/-- An attempt that asks for the one source in which the packages differ leaves them differing in no
other. -/
theorem alike_of_asking (h : Alike (· ≠ source) p q) (hasks : p.AsksIn source x)
    (hnames : answerNames (p.attempt x).1 = answerNames (q.attempt x).1) :
    Alike (· ≠ source) (p.attempt x).2 (q.attempt x).2 := by
  apply (h.facing x.files).create_elsewhere rfl
  · intro other hother hne
    exact hne (asksIn_unique hother hasks)
  · have hcreated := (create_facts (p.facing x.files) x.creation).2.2
    have hcreated' := (create_facts (q.facing x.files) x.creation).2.2
    have hbefore : (p.facing x.files).created = (q.facing x.files).created := h.created
    rw [hcreated, hcreated', hbefore]
    exact congrArg _ hnames

/-- Packages that hold the same of the source, too, are alike in all sources. -/
theorem alike_of_source (h : Alike (· ≠ source) p q)
    (hseeded : source ∈ p.seeded ↔ source ∈ q.seeded)
    (hgreatest : greatest (p.relationshipsOn source) = greatest (q.relationshipsOn source)) :
    Alike (fun _ => True) p q where
  root := h.root
  dryRun := h.dryRun
  created := h.created
  seeded other _ := by
    by_cases hother : other = source
    · exact hother ▸ hseeded
    · exact h.seeded other hother
  greatest other _ := by
    by_cases hother : other = source
    · exact hother ▸ hgreatest
    · exact h.greatest other hother

/-- An attempt that both packages answer alike, and leave to those after it unless it ends in an
overflow. -/
theorem ids_iff_of_same (hanswer : (p.attempt x).1 = (q.attempt x).1)
    (hgoes : (p.attempt x).1 ≠ .error .overflow) :
    List.Forall₂ Warrants (p.ids (x :: xs)) (q.ids (x :: xs)) ↔
      List.Forall₂ Warrants ((p.attempt x).2.ids xs) ((q.attempt x).2.ids xs) := by
  rw [ids_of_ne_overflow hgoes, ids_of_ne_overflow (hanswer ▸ hgoes), List.forall₂_cons, hanswer]
  exact and_iff_right (Warrants.refl _)

/-- Nor does one tell them apart that fails in both. -/
theorem ids_iff_of_errors {e e' : PartError} (hleft : (p.attempt x).1 = .error e)
    (hne : e ≠ .overflow) (hright : (q.attempt x).1 = .error e') (hne' : e' ≠ .overflow) :
    List.Forall₂ Warrants (p.ids (x :: xs)) (q.ids (x :: xs)) ↔
      List.Forall₂ Warrants ((p.attempt x).2.ids xs) ((q.attempt x).2.ids xs) := by
  rw [ids_of_ne_overflow (attempt_ne_overflow hleft hne),
    ids_of_ne_overflow (attempt_ne_overflow hright hne'), List.forall₂_cons, hright]
  exact and_iff_right (warrants_none _)

/-- If the second package has been told of the greatest number of all, it gives nothing on the
source. -/
theorem ids_of_full (h : Alike (· ≠ source) p q) (hold : source ∈ q.seeded)
    (full : Full (q.relationshipsOn source)) (xs : List Attempt) :
    List.Forall₂ Warrants (p.ids xs) (q.ids xs) := by
  induction xs generalizing p q with
  | nil => exact .nil
  | cons x xs ih =>
    have hold' := mem_seeded_attempt (x := x).2 (Or.inl hold)
    by_cases hasks : p.AsksIn source x
    · have hasks' := h.asksIn_iff.1 hasks
      have hright := attempt_fst_of_seeded hasks' hold
      cases hstore : p.storing x with
      | error e =>
        obtain ⟨e₁, hleft, hne⟩ := attempt_of_not_stored hasks hstore
        obtain ⟨e₂, hright, hne'⟩ := attempt_of_not_stored hasks' (h.storing x ▸ hstore)
        rw [ids_iff_of_errors hleft hne hright hne']
        apply ih (alike_of_asking h hasks (by rw [hleft, hright]; rfl)) hold'
        rw [relationshipsOn_attempt_of_error hright hold]
        exact full
      | ok _ =>
        rw [← h.storing, hstore] at hright
        exact forall₂_warrants_of_overflow (hright.trans (answerOn_of_full full))
    · obtain ⟨hanswer, hafter⟩ := h.attempt (x := x) fun other hother e => hasks (e ▸ hother)
      by_cases hstops : (p.attempt x).1 = .error .overflow
      · exact forall₂_warrants_of_overflow (hanswer ▸ hstops)
      · rw [ids_iff_of_same hanswer hstops]
        apply ih hafter hold'
        rw [attempt, relationshipsOn_create_of_not_asks (mt h.asksIn_iff.2 hasks)]
        exact full

/-- Packages that have both been told about the source, but of different numbers, answer alike only
as long as no number on it is asked for, if the second has one. -/
theorem ids_iff_of_greatest_ne (h : Alike (· ≠ source) p q) (hold : source ∈ p.seeded)
    (hold' : source ∈ q.seeded) (room : ¬ Full (q.relationshipsOn source))
    (hne : greatest (p.relationshipsOn source) ≠ greatest (q.relationshipsOn source))
    (xs : List Attempt) :
    List.Forall₂ Warrants (p.ids xs) (q.ids xs) ↔ ¬ p.Draws source xs := by
  induction xs generalizing p q with
  | nil => exact iff_of_true .nil id
  | cons x xs ih =>
    have hold₁ := mem_seeded_attempt (x := x).2 (Or.inl hold)
    have hold₁' := mem_seeded_attempt (x := x).2 (Or.inl hold')
    by_cases hasks : p.AsksIn source x
    · have hleft := attempt_fst_of_seeded hasks hold
      have hright := attempt_fst_of_seeded (h.asksIn_iff.1 hasks) hold'
      rw [← h.storing] at hright
      cases hstore : p.storing x with
      | error e =>
        have hne' : e ≠ .overflow := ne_overflow_of_store hstore
        rw [hstore] at hleft hright
        replace hleft : (p.attempt x).1 = .error e := hleft
        have hon := relationshipsOn_attempt_of_error hleft hold
        have hon' := relationshipsOn_attempt_of_error hright hold'
        rw [ids_iff_of_errors hleft hne' hright hne', draws_cons_iff]
        · exact ih (alike_of_asking h hasks (by rw [hleft, hright]; rfl)) hold₁ hold₁'
            (hon' ▸ room) (by rw [hon, hon']; exact hne)
        · exact fun hboth => not_stored_of_ne hne' (hleft ▸ hboth.2)
        · exact attempt_ne_overflow hleft hne'
      | ok _ =>
        rw [hstore] at hleft hright
        obtain ⟨id, hnext, hgiven⟩ := answerOn_of_not_full (x := x) room
        have hstored : Stored (p.attempt x).1 := hleft ▸ stored_answerOn x _
        refine iff_of_false (fun hids => ?_) fun hnot => hnot (Or.inl ⟨hasks, hstored⟩)
        have hwarrants : Warrants (answerId (p.attempt x).1) (answerId (q.attempt x).1) :=
          (List.forall₂_cons.1 hids).1
        rw [hleft, hright.trans hgiven] at hwarrants
        have hnext' := answerId_answerOn.1 (warrants_some_iff.1 hwarrants)
        exact hne (PackageMetadata.nextId_inj.1 (hnext'.trans hnext.symm))
    · obtain ⟨hanswer, hafter⟩ := h.attempt (x := x) fun other hother e => hasks (e ▸ hother)
      by_cases hstops : (p.attempt x).1 = .error .overflow
      · exact iff_of_true (forall₂_warrants_of_overflow (hanswer ▸ hstops))
          (not_draws_of_overflow hasks hstops)
      · have hon := relationshipsOn_create_of_not_asks hasks
        have hon' := relationshipsOn_create_of_not_asks (mt h.asksIn_iff.2 hasks)
        rw [ids_iff_of_same hanswer hstops, draws_cons_iff (fun hboth => hasks hboth.1) hstops]
        refine ih hafter hold₁ hold₁' ?_ ?_
        · rw [attempt, hon']
          exact room
        · rw [attempt, attempt, hon, hon']
          exact hne

/-- The packages hold the same of all sources but one. The second has been told about that one, of
`held`, and the first has not. -/
structure Ahead (source : String) (held : List Relationship) (p q : DirectoryPackage) : Prop where
  alike : Alike (· ≠ source) p q
  unseeded : source ∉ p.seeded
  nothing : p.relationshipsOn source = []
  seeded : source ∈ q.seeded
  holds : greatest (q.relationshipsOn source) = greatest held

theorem Ahead.next (h : Ahead source held p q) (hasks : ¬ p.AsksIn source x) :
    (p.attempt x).1 = (q.attempt x).1 ∧ Ahead source held (p.attempt x).2 (q.attempt x).2 := by
  obtain ⟨hanswer, hafter⟩ := h.alike.attempt (x := x) fun other hother e => hasks (e ▸ hother)
  refine ⟨hanswer, hafter, ?_, ?_, mem_seeded_attempt.2 (Or.inl h.seeded), ?_⟩
  · exact fun hmem => (mem_seeded_attempt.1 hmem).elim h.unseeded hasks
  · rw [attempt, relationshipsOn_create_of_not_asks hasks]
    exact h.nothing
  · rw [attempt, relationshipsOn_create_of_not_asks (mt h.alike.asksIn_iff.2 hasks)]
    exact h.holds

/-- What is held of the source once the first attempt has asked for it. -/
theorem Ahead.greatest_after (h : Ahead source held p q) (hasks : p.AsksIn source x) :
    greatest ((p.attempt x).2.relationshipsOn source) =
        max (greatest (p.listedIn source x))
          (greatest (onSource source ((p.facing x.files).givenTo x.creation))) ∧
      greatest ((q.attempt x).2.relationshipsOn source) =
        max (greatest held)
          (greatest (onSource source ((q.facing x.files).givenTo x.creation))) := by
  rw [relationshipsOn_attempt, relationshipsOn_attempt, if_pos ⟨hasks, h.unseeded⟩,
    if_neg fun hboth => hboth.2 h.seeded, PackageMetadata.greatest_append,
    PackageMetadata.greatest_append, PackageMetadata.greatest_foldl_adjoin, h.nothing, h.holds]
  exact ⟨congrArg (max · _) (Nat.zero_max _), rfl⟩

/-- If the first attempt to ask for the source cannot store its body, the numbers decide. -/
theorem ids_iff_of_not_stored (h : Ahead source held p q) (room : ¬ Full held)
    (hasks : p.AsksIn source x) {e : PartError} (hstore : p.storing x = .error e)
    (xs : List Attempt) :
    List.Forall₂ Warrants (p.ids (x :: xs)) (q.ids (x :: xs)) ↔
      greatest held = greatest (p.listedIn source x) ∨ ¬ p.Draws source (x :: xs) := by
  have hasks' := h.alike.asksIn_iff.1 hasks
  obtain ⟨e₁, hleft, hne⟩ := attempt_of_not_stored hasks hstore
  obtain ⟨e₂, hright, hne'⟩ := attempt_of_not_stored hasks' (h.alike.storing x ▸ hstore)
  have hafter := alike_of_asking h.alike hasks (by rw [hleft, hright]; rfl)
  have hold := mem_seeded_attempt (x := x).2 (Or.inr hasks)
  have hold' := mem_seeded_attempt (x := x).2 (Or.inl h.seeded)
  obtain ⟨hnow, hnow'⟩ := h.greatest_after hasks
  rw [onSource_givenTo_of_error hleft] at hnow
  rw [onSource_givenTo_of_error hright] at hnow'
  replace hnow := hnow.trans (Nat.max_zero _)
  replace hnow' := hnow'.trans (Nat.max_zero _)
  rw [ids_iff_of_errors hleft hne hright hne']
  by_cases heq : greatest held = greatest (p.listedIn source x)
  · have hall := alike_of_source hafter (iff_of_true hold hold') (by rw [hnow, hnow', heq])
    rw [hall.ids]
    exact iff_of_true (forall₂_warrants_refl _) (Or.inl heq)
  · rw [or_iff_right heq, draws_cons_iff (fun hboth => not_stored_of_ne hne (hleft ▸ hboth.2))
      (attempt_ne_overflow hleft hne)]
    apply ids_iff_of_greatest_ne hafter hold hold'
    · exact mt (PackageMetadata.full_congr hnow').1 room
    · rw [hnow, hnow']
      exact Ne.symm heq

/-- If it can, the list has to be readable with the same greatest number. -/
theorem ids_iff_of_stored (h : Ahead source held p q) (room : ¬ Full held)
    (hasks : p.AsksIn source x) (hstore : p.storing x = .ok ()) (xs : List Attempt) :
    List.Forall₂ Warrants (p.ids (x :: xs)) (q.ids (x :: xs)) ↔
      (p.facing x.files).listFault? source = none ∧
        greatest held = greatest (p.listedIn source x) := by
  have hleft := attempt_fst_of_unseeded hasks h.unseeded
  have hright := attempt_fst_of_seeded (h.alike.asksIn_iff.1 hasks) h.seeded
  rw [← h.alike.storing, hstore] at hright
  rw [hstore, h.nothing] at hleft
  obtain ⟨id, hnext, hgiven⟩ :=
    answerOn_of_not_full (x := x) (mt (PackageMetadata.full_congr h.holds).1 room)
  replace hright := hright.trans hgiven
  have hfirst : List.Forall₂ Warrants (p.ids (x :: xs)) (q.ids (x :: xs)) →
      answerId (p.attempt x).1 = some id := by
    intro hids
    have hwarrants : Warrants (answerId (p.attempt x).1) (answerId (q.attempt x).1) :=
      (List.forall₂_cons.1 hids).1
    rw [hright] at hwarrants
    exact warrants_some_iff.1 hwarrants
  cases hfault : (p.facing x.files).listFault? source with
  | some e =>
    rw [hfault] at hleft
    refine iff_of_false (fun hids => ?_) fun hboth => nomatch hboth.1
    have hnone := hfirst hids
    rw [hleft] at hnone
    cases hnone
  | none =>
    rw [hfault] at hleft
    replace hleft : (p.attempt x).1 =
        answerOn x ((p.listedIn source x).foldl Relationship.adjoin []) := hleft
    have hsame : nextId ((p.listedIn source x).foldl Relationship.adjoin []) =
        nextId (q.relationshipsOn source) ↔ greatest held = greatest (p.listedIn source x) := by
      rw [PackageMetadata.nextId_inj, PackageMetadata.greatest_foldl_adjoin, h.holds, eq_comm]
      exact Eq.congr_right (Nat.zero_max _)
    rw [and_iff_right rfl]
    constructor
    · intro hids
      have hanswer := hfirst hids
      rw [hleft, answerId_answerOn] at hanswer
      exact hsame.1 (hanswer.trans hnext.symm)
    · intro heq
      have hanswer : (p.attempt x).1 = (q.attempt x).1 := by
        rw [hleft, hright, answerOn, hsame.2 heq, hnext]
        rfl
      have hgoes : (p.attempt x).1 ≠ .error .overflow := by
        rw [hanswer, hright]
        exact fun hstops => nomatch hstops
      have hrecorded : (p.facing x.files).givenTo x.creation =
          (q.facing x.files).givenTo x.creation := by
        have hanswers : ((p.facing x.files).create x.creation).1 =
            ((q.facing x.files).create x.creation).1 := hanswer
        rw [givenTo, givenTo, hanswers]
      obtain ⟨hnow, hnow'⟩ := h.greatest_after hasks
      have hall := alike_of_source (alike_of_asking h.alike hasks (by rw [hanswer]))
        (iff_of_true (mem_seeded_attempt.2 (Or.inr hasks)) (mem_seeded_attempt.2 (Or.inl h.seeded)))
        (by rw [hnow, hnow', heq, hrecorded])
      rw [ids_iff_of_same hanswer hgoes, hall.ids]
      exact forall₂_warrants_refl _

theorem unharmed_of_full (full : Full held) (p : DirectoryPackage) (xs : List Attempt) :
    p.Unharmed source held xs := by
  induction xs generalizing p with
  | nil => trivial
  | cons x xs ih =>
    rw [Unharmed]
    split
    · exact Or.inl full
    · exact Or.inr (ih _)

/-- The first attempt to ask for the source decides whether the packages answer alike. -/
theorem ids_iff_of_ahead (h : Ahead source held p q) (xs : List Attempt) :
    List.Forall₂ Warrants (p.ids xs) (q.ids xs) ↔ p.Unharmed source held xs := by
  by_cases room : Full held
  · refine iff_of_true (ids_of_full h.alike h.seeded ?_ xs) (unharmed_of_full room p xs)
    exact (PackageMetadata.full_congr h.holds).2 room
  · induction xs generalizing p q with
    | nil => exact iff_of_true .nil trivial
    | cons x xs ih =>
      rw [Unharmed]
      by_cases hasks : p.AsksIn source x
      · rw [if_pos hasks, or_iff_right room]
        cases hstore : p.storing x with
        | error e =>
          rw [ids_iff_of_not_stored h room hasks hstore]
          exact (and_iff_right (Or.inr ⟨e, rfl⟩)).symm
        | ok _ =>
          rw [ids_iff_of_stored h room hasks hstore, or_iff_left (by simp)]
          refine and_congr_right fun hread => ?_
          have hleft := attempt_fst_of_unseeded hasks h.unseeded
          rw [hread, hstore] at hleft
          have hstored : Stored (p.attempt x).1 := hleft ▸ stored_answerOn x _
          have hdraws : p.Draws source (x :: xs) := Or.inl ⟨hasks, hstored⟩
          exact (or_iff_left (not_not.2 hdraws)).symm
      · obtain ⟨hanswer, hnext⟩ := h.next hasks
        rw [if_neg hasks]
        by_cases hstops : (p.attempt x).1 = .error .overflow
        · exact iff_of_true (forall₂_warrants_of_overflow (hanswer ▸ hstops)) (Or.inl hstops)
        · rw [ids_iff_of_same hanswer hstops, ih hnext, or_iff_right hstops]

/-! ## The failed call -/

/-- A call that fails changes only what is held of the source that it is the first to ask for. -/
theorem alike_of_error {e : PartError} (h : (p.attempt x).1 = .error e) :
    Alike (fun source => ¬ (p.AsksIn source x ∧ source ∉ p.seeded)) p (p.attempt x).2 := by
  obtain ⟨hroot, hdryRun, hcreated⟩ := create_facts (p.facing x.files) x.creation
  constructor
  · exact hroot.symm
  · exact hdryRun.symm
  · have hnone : answerNames ((p.facing x.files).create x.creation).1 = [] := by
      rw [attempt] at h
      rw [h]
      rfl
    rw [attempt, hcreated, hnone, List.append_nil]
    rfl
  · intro source hsource
    rw [mem_seeded_attempt]
    exact ⟨Or.inl, fun hmem => hmem.elim (fun hold => hold) fun hasks =>
      by_contra fun hnew => hsource ⟨hasks, hnew⟩⟩
  · intro source hsource
    rw [relationshipsOn_attempt, if_neg hsource, onSource_givenTo_of_error h, List.append_nil]

/-- The call that is made again fails in the same way, unless the list could not be read. -/
theorem attempt_again_iff {e : PartError} (h : (p.attempt x).1 = .error e)
    (answers : e ≠ .overflow) : ((p.attempt x).2.attempt x).1 = .error e ↔ ¬ e.OfList := by
  have halike := (alike_of_error h).facing x.files
  cases hobstacle : x.creation.part.obstacle? (p.facing x.files).hasPart with
  | some e' =>
    have hagain : (p.attempt x).2.attempt x = (.error e', (p.attempt x).2.facing x.files) := by
      apply create_of_obstacle
      rw [← halike.hasPart rfl]
      exact hobstacle
    rw [attempt, create_of_obstacle hobstacle] at h
    cases h
    exact iff_of_true (congrArg Prod.fst hagain) (not_ofList_of_obstacle hobstacle).1
  | none =>
    have hagain : x.creation.part.obstacle? ((p.attempt x).2.facing x.files).hasPart = none := by
      rw [← halike.hasPart rfl]
      exact hobstacle
    have hseeded : (((p.attempt x).2.facing x.files).seed x.creation.part).1 = .ok () := by
      apply seed_fst_seeded
      intro source hsource
      exact mem_seeded_attempt.2 (Or.inr ⟨hobstacle, hsource⟩)
    have hstored : ((p.attempt x).2.attempt x).1 = .error e ↔ p.storing x = .error e := by
      rw [(alike_of_error h).storing, attempt, create_fst hagain, hseeded]
      change storing (p.attempt x).2 x >>= _ = _ ↔ _
      rw [bind_eq_error_iff]
      refine or_iff_left ?_
      rintro ⟨_, _, hnumber⟩
      exact answers (PackageMetadata.eq_overflow_of_identifier (map_eq_error_iff.1 hnumber))
    rw [hstored]
    rw [attempt, create_fst hobstacle, bind_eq_error_iff] at h
    rcases h with hseed | ⟨_, _, hrest⟩
    · refine iff_of_false (fun hstore => ?_) fun hnot => hnot (ofList_of_seed hseed)
      exact not_ofList_of_store hstore (ofList_of_seed hseed)
    · rcases bind_eq_error_iff.1 hrest with hstore | ⟨_, _, hnumber⟩
      · exact iff_of_true hstore (not_ofList_of_store hstore)
      · exact absurd (PackageMetadata.eq_overflow_of_identifier (map_eq_error_iff.1 hnumber))
          answers

/-! ## Runs -/

/-- If nothing is held of a source that has not been asked, that stays so. -/
theorem relationshipsOn_served (hstart : source ∉ p.seeded → p.relationshipsOn source = [])
    (xs : List Attempt) (h : source ∉ (p.served xs).seeded) :
    (p.served xs).relationshipsOn source = [] := by
  induction xs generalizing p with
  | nil => exact hstart h
  | cons x xs ih =>
    refine ih (p := (p.attempt x).2) (fun hnew => ?_) h
    rw [mem_seeded_attempt, not_or] at hnew
    rw [attempt, relationshipsOn_create_of_not_asks hnew.2]
    exact hstart hnew.1

/-- A run on files that nothing else changes is a run on what each call leaves for the next. -/
theorem exists_served_eq_after (p : DirectoryPackage) (cs : List Creation) :
    ∃ xs : List Attempt, xs.map Attempt.creation = cs ∧ p.served xs = p.after cs := by
  induction cs generalizing p with
  | nil => exact ⟨[], rfl, rfl⟩
  | cons c cs ih =>
    obtain ⟨xs, hxs, hserved⟩ := ih (p.create c).2
    exact ⟨⟨p.files, c⟩ :: xs, congrArg _ hxs, hserved⟩

/-- A call that is answered with an error changes no file. Made again on the files that it found it
fails in the same way, unless it could not read the list of relationships on its source: that list
is not read again. Later calls are given no identifier that they would not have been given without
it, if and only if it does no harm to them to hold what it was told of its source. -/
theorem failed_attempt_spec (root : String) (dryRun : Bool) (files : Files)
    (earlier : List Attempt) (x : Attempt) {e : PartError}
    (h : (((ofDirectory root dryRun files).served earlier).attempt x).1 = .error e)
    (answers : e ≠ .overflow) (later : List Attempt) :
    let p := (ofDirectory root dryRun files).served earlier
    Files.WithDirectories x.files (p.attempt x).2.files ∧
      (((p.attempt x).2.attempt x).1 = .error e ↔ ¬ e.OfList) ∧
      (List.Forall₂ Warrants (p.ids later) ((p.attempt x).2.ids later) ↔
        ∀ source, p.AsksIn source x → source ∉ p.seeded →
          p.Unharmed source (p.listedIn source x) later) := by
  intro p
  have hfiles : Files.WithDirectories x.files (p.attempt x).2.files := by
    rcases files_create (p.facing x.files) x.creation with ⟨hstored, _⟩ | ⟨_, hfiles, _⟩
    · have hanswer : ((p.facing x.files).create x.creation).1 = .error e := h
      exact absurd (hanswer ▸ hstored) (not_stored_of_ne answers)
    · exact hfiles
  refine ⟨hfiles, attempt_again_iff h answers, ?_⟩
  by_cases hopens : ∃ source, p.AsksIn source x ∧ source ∉ p.seeded
  · obtain ⟨source, hasks, hnew⟩ := hopens
    have hnothing : p.relationshipsOn source = [] :=
      relationshipsOn_served (fun _ => rfl) earlier hnew
    have hahead : Ahead source (p.listedIn source x) p (p.attempt x).2 := by
      refine ⟨?_, hnew, hnothing, mem_seeded_attempt.2 (Or.inr hasks), ?_⟩
      · exact (alike_of_error h).mono fun other hother hboth => hother (asksIn_unique hboth.1 hasks)
      · rw [relationshipsOn_attempt, if_pos ⟨hasks, hnew⟩, onSource_givenTo_of_error h,
          List.append_nil, PackageMetadata.greatest_foldl_adjoin, hnothing]
        exact Nat.zero_max _
    rw [ids_iff_of_ahead hahead]
    constructor
    · intro hunharmed other hother _
      exact asksIn_unique hasks hother ▸ hunharmed
    · exact fun hall => hall source hasks hnew
  · have hsame : Alike (fun _ => True) p (p.attempt x).2 :=
      (alike_of_error h).mono fun source _ hboth => hopens ⟨source, hboth⟩
    rw [← hsame.ids]
    exact iff_of_true (forall₂_warrants_refl _) fun source hasks hnew =>
      absurd ⟨source, hasks, hnew⟩ hopens

/-! ## A list that cannot be read -/

/-- A part with a relationship on the package, whose list is no document. -/
def brokenList : Attempt where
  files := ⟨[(["pkg"], .directory), (["pkg", "_rels"], .directory),
    (["pkg", "_rels", ".rels"], .file "<Relationships>")]⟩
  creation := ⟨⟨"/a.xml", "u", some ⟨"/", "t"⟩⟩, bareRoot⟩

def unread : DirectoryPackage := ofDirectory "pkg" false brokenList.files

def unclosedList : Xml.LoadError := .invalid (.malformed 15 .unclosedElement)

theorem asksIn_brokenList : unread.AsksIn "/" brokenList := by
  have hnew : unread.hasPart "/a.xml" = false := by cbv
  have hnone : brokenList.creation.part.obstacle? unread.hasPart = none := by
    simp [PartSpec.obstacle?, brokenList, hnew]
  exact ⟨hnone, rfl⟩

theorem load_brokenList : Xml.load unread.files (unread.listPath "/") = .error unclosedList := by
  have hread : unread.files.read (unread.listPath "/") = .ok "<Relationships>" := by cbv
  have hunclosed : Xml.read "<Relationships>" = .error (.malformed 15 .unclosedElement) := by cbv
  rw [Xml.load, hread]
  dsimp only
  rw [hunclosed]
  rfl

theorem listFault?_brokenList : unread.listFault? "/" = some unclosedList := by
  have hfile : unread.files.isFile (unread.listPath "/") = true := by cbv
  rw [listFault?_eq, if_pos hfile, load_brokenList]

theorem listedIn_brokenList : unread.listedIn "/" brokenList = [] := by
  have hload : Xml.load (unread.facing brokenList.files).files
      ((unread.facing brokenList.files).listPath "/") = .error unclosedList := load_brokenList
  rw [listedIn, listed, hload]

theorem attempt_brokenList :
    (unread.attempt brokenList).1 = .error (.rejected "/a.xml" (.relationships unclosedList)) := by
  have hfault : (unread.facing brokenList.files).listFault? "/" = some unclosedList :=
    listFault?_brokenList
  rw [attempt_fst_of_unseeded asksIn_brokenList List.not_mem_nil, hfault]
  rfl

theorem storing_brokenList : unread.storing brokenList = .ok () := by cbv

/-- The call that failed succeeds when it is made again, although nothing has changed. -/
theorem retried_of_brokenList :
    (unread.attempt brokenList).1 = .error (.rejected "/a.xml" (.relationships unclosedList)) ∧
      ((unread.attempt brokenList).2.attempt brokenList).1 = .ok ⟨"/a.xml", some "rId1"⟩ := by
  have halike := alike_of_error attempt_brokenList
  refine ⟨attempt_brokenList, ?_⟩
  rw [attempt_fst_of_seeded (halike.asksIn_iff.1 asksIn_brokenList)
    (mem_seeded_attempt.2 (Or.inr asksIn_brokenList)), ← halike.storing, storing_brokenList,
    relationshipsOn_attempt, if_pos ⟨asksIn_brokenList, List.not_mem_nil⟩,
    onSource_givenTo_of_error attempt_brokenList, listedIn_brokenList]
  cbv

theorem failed_attempt_spec_brokenList :
    (unread.attempt brokenList).1 = .error (.rejected "/a.xml" (.relationships unclosedList)) ∧
      PartError.rejected "/a.xml" (.relationships unclosedList) ≠ .overflow ∧
      ((unread.attempt brokenList).2.attempt brokenList).1 ≠
        .error (.rejected "/a.xml" (.relationships unclosedList)) ∧
      ¬ List.Forall₂ Warrants (unread.ids [brokenList])
        ((unread.attempt brokenList).2.ids [brokenList]) := by
  obtain ⟨_, hagain, hlater⟩ := failed_attempt_spec "pkg" false brokenList.files [] brokenList
    attempt_brokenList PartError.noConfusion [brokenList]
  refine ⟨attempt_brokenList, PartError.noConfusion, fun h => hagain.1 h ⟨_, _, rfl⟩, fun h => ?_⟩
  have hunharmed := hlater.1 h "/" asksIn_brokenList List.not_mem_nil
  have hasks : ((ofDirectory "pkg" false brokenList.files).served []).AsksIn "/" brokenList :=
    asksIn_brokenList
  rw [Unharmed, if_pos hasks] at hunharmed
  rcases hunharmed with ⟨id, hid, _⟩ | ⟨hread | ⟨e, hstore⟩, _⟩
  · have hnone : ((ofDirectory "pkg" false brokenList.files).served []).listedIn "/" brokenList =
        [] := listedIn_brokenList
    rw [hnone] at hid
    cases hid
  · cases listFault?_brokenList.symm.trans hread
  · cases storing_brokenList.symm.trans hstore

end DirectoryPackage

end PartPatch
