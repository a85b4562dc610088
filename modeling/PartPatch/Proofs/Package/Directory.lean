import PartPatch.Package.Directory
import PartPatch.Proofs.Files
import PartPatch.Proofs.Package.Relationship
import PartPatch.Proofs.Registry.Compile

/-!
# Identifiers given out in a directory

What is recorded on a source is what its `.rels` file listed when a relationship was first asked for
there, and behind it all that was given out since. A new identifier gets the number after the
greatest of those. It meets one that was given out or is in the file only if the file has another
source as well, or if it listed less before.
-/

namespace PartPatch

set_option autoImplicit false

namespace DirectoryPackage

/-- A part to be created, with its body. -/
structure Creation where
  part : PartSpec
  body : Tree

def create (p : DirectoryPackage) (c : Creation) :
    Except PartError CreatedPart × DirectoryPackage :=
  p.createPart c.part c.body

/-- The package after the parts were created one after the other, as far as it took them. -/
def after (p : DirectoryPackage) (cs : List Creation) : DirectoryPackage :=
  cs.foldl (fun p c => (p.create c).2) p

/-- The path of the file that lists the relationships on a source. -/
def listPath (p : DirectoryPackage) (source : String) : String :=
  p.pathOf (Relationship.partName source)

/-- The relationships on a source lead to one `.rels` file. -/
def SameList (p : DirectoryPackage) (source other : String) : Prop :=
  FilePath.placeOf (p.listPath source) = FilePath.placeOf (p.listPath other)

/-- What the `.rels` file of a source lists. A file that cannot be read lists nothing. -/
def listed (p : DirectoryPackage) (source : String) : List Relationship :=
  match Xml.load p.files (p.listPath source) with
  | .ok t => Relationship.ofTree t
  | .error _ => []

/-- The identifiers in the file at a path. What is in a text that is not well-formed can be taken as
one likes. -/
def idsIn (broken : String → List String) (files : Files) (path : String) : List String :=
  match files.read path with
  | .error _ => []
  | .ok text =>
    match Xml.read text with
    | .ok t => (Relationship.ofTree t).map Relationship.id
    | .error _ => broken text

/-- The creation gets as far as asking for the relationships on the source. -/
def Asks (p : DirectoryPackage) (source : String) (c : Creation) : Prop :=
  c.part.obstacle? p.hasPart = none ∧ c.part.relationship.map RelationshipSpec.source = some source

instance (p : DirectoryPackage) (source : String) (c : Creation) : Decidable (p.Asks source c) :=
  inferInstanceAs (Decidable (_ ∧ _))

/-- What the `.rels` file of a source lists when the first of the creations asks for it. -/
def firstListed (p : DirectoryPackage) (source : String) : List Creation → List Relationship
  | [] => p.listed source
  | c :: cs => if p.Asks source c then p.listed source else (p.create c).2.firstListed source cs

/-- The relationship that the creation records, with its source. -/
def givenTo (p : DirectoryPackage) (c : Creation) : List (String × Relationship) :=
  match (p.create c).1, c.part.relationship with
  | .ok ⟨_, some id⟩, some spec => [(spec.source, ⟨id, spec.type, c.part.name⟩)]
  | _, _ => []

/-- The relationships that the creations record. -/
def given (p : DirectoryPackage) : List Creation → List (String × Relationship)
  | [] => []
  | c :: cs => p.givenTo c ++ (p.create c).2.given cs

/-- Those of the relationships that are on the source. -/
def onSource (source : String) (entries : List (String × Relationship)) : List Relationship :=
  (entries.filter fun entry => entry.1 = source).map Prod.snd

/-- All that has been read of a source or recorded on it in the run, the list in its file first. -/
def known (p : DirectoryPackage) (source : String) (cs : List Creation) : List Relationship :=
  p.firstListed source cs ++ onSource source (p.given cs)

def relationshipsOn (p : DirectoryPackage) (source : String) : List Relationship :=
  p.metadata.relationshipsOn source

/-! ## Collisions -/

section

variable (p : DirectoryPackage) (cs : List Creation) (now : Files) (broken : String → List String)
  (source id : String)

/-- The identifier is in the source's `.rels` file as it is now, or one of the creations was given
it for that file. -/
def Collides : Prop :=
  id ∈ idsIn broken now (p.listPath source) ∨
    ∃ entry ∈ p.given cs, p.SameList source entry.1 ∧ entry.2.id = id

/-- The file has the identifier now, but did not list it when it was asked. -/
def ListedSince : Prop :=
  id ∈ idsIn broken now (p.listPath source) ∧
    id ∉ (p.firstListed source cs).map Relationship.id

/-- A creation with another source was given the identifier for the same file. -/
def GivenToOther : Prop :=
  ∃ entry ∈ p.given cs, entry.1 ≠ source ∧ p.SameList source entry.1 ∧ entry.2.id = id

end

variable {p : DirectoryPackage} {part : PartSpec} {spec : RelationshipSpec} {body : Tree}
  {source : String} {c : Creation} {cs : List Creation}

/-! ## One creation -/

theorem listed_of_not_isFile (h : ¬ p.files.isFile (p.listPath source) = true) :
    p.listed source = [] := by
  rw [listed, Xml.load]
  cases hread : p.files.read (p.listPath source) with
  | error e => rfl
  | ok text => exact absurd (Files.isFile_of_read hread) h

/-- Sources whose relationships lead to one file have the same identifiers in it. -/
theorem idsIn_eq_of_sameList {files : Files} {other : String} (broken : String → List String)
    (same : p.SameList source other) (h : files.isFile (p.listPath source) = true)
    (h' : files.isFile (p.listPath other) = true) :
    idsIn broken files (p.listPath source) = idsIn broken files (p.listPath other) := by
  obtain ⟨text, htext⟩ := Files.exists_read_of_isFile h
  obtain ⟨text', htext'⟩ := Files.exists_read_of_isFile h'
  obtain rfl : text = text' := Files.read_unique same htext htext'
  rw [idsIn, idsIn, htext, htext']

/-- A file that cannot be read leaves no relationships behind. -/
theorem readRelationships_cases (p : DirectoryPackage) (source : String) :
    (∃ e, p.readRelationships source = .error e ∧ p.listed source = []) ∨
      p.readRelationships source = .ok { p with
        metadata := p.metadata.addRelationships source (p.listed source) } := by
  unfold readRelationships
  by_cases hfile : p.files.isFile (p.listPath source) = true
  · have hfile' : p.files.isFile (p.pathOf (Relationship.partName source)) = true := hfile
    simp only [hfile', if_true]
    have hload : Xml.load p.files (p.pathOf (Relationship.partName source)) =
        Xml.load p.files (p.listPath source) := rfl
    cases hread : Xml.load p.files (p.listPath source) with
    | error e =>
      refine Or.inl ⟨e, ?_, ?_⟩
      · rw [hload, hread]
        rfl
      · rw [listed, hread]
    | ok t =>
      refine Or.inr ?_
      rw [hload, hread, listed, hread]
      rfl
  · have hfile' : ¬ p.files.isFile (p.pathOf (Relationship.partName source)) = true := hfile
    rw [if_neg hfile', listed_of_not_isFile hfile]
    exact Or.inr rfl

/-- What a package is once the relationships on the source have been asked for. -/
theorem seed_unseeded (h : part.relationship = some spec) (hnew : spec.source ∉ p.seeded) :
    (p.seed part).2 = { p with
      seeded := spec.source :: p.seeded
      metadata := p.metadata.addRelationships spec.source (p.listed spec.source) } := by
  simp only [seed, h, List.contains_iff_mem, hnew, if_false]
  rcases readRelationships_cases { p with seeded := spec.source :: p.seeded } spec.source with
    ⟨e, herror, hnone⟩ | hok
  · have hnone' : p.listed spec.source = [] := hnone
    rw [herror, hnone']
    rfl
  · rw [hok]
    rfl

theorem seed_seeded (h : part.relationship = some spec) (hold : spec.source ∈ p.seeded) :
    (p.seed part).2 = p := by
  simp [seed, h, hold]

theorem seed_unrelated (h : part.relationship = none) : (p.seed part).2 = p := by
  simp [seed, h]

theorem mem_seeded_seed : source ∈ (p.seed part).2.seeded ↔
    source ∈ p.seeded ∨ part.relationship.map RelationshipSpec.source = some source := by
  cases h : part.relationship with
  | none => simp [seed_unrelated h]
  | some spec =>
    by_cases hold : spec.source ∈ p.seeded
    · rw [seed_seeded h hold, Option.map_some, Option.some_inj]
      exact ⟨Or.inl, fun hmem => hmem.elim (fun hmem => hmem) fun e => e ▸ hold⟩
    · rw [seed_unseeded h hold, Option.map_some, Option.some_inj, List.mem_cons, or_comm,
        @eq_comm _ source]

theorem relationshipsOn_seed : (p.seed part).2.relationshipsOn source =
    if part.relationship.map RelationshipSpec.source = some source ∧ source ∉ p.seeded then
      (p.listed source).foldl Relationship.adjoin (p.relationshipsOn source)
    else p.relationshipsOn source := by
  cases h : part.relationship with
  | none => simp [seed_unrelated h]
  | some spec =>
    simp only [Option.map_some, Option.some_inj]
    by_cases hold : spec.source ∈ p.seeded
    · rw [seed_seeded h hold, if_neg]
      rintro ⟨rfl, hnew⟩
      exact hnew hold
    · rw [seed_unseeded h hold, relationshipsOn,
        PackageMetadata.relationshipsOn_addRelationships]
      by_cases hsource : source = spec.source
      · rw [if_pos hsource, if_pos ⟨hsource.symm, hsource ▸ hold⟩, hsource]
        rfl
      · rw [if_neg hsource, if_neg fun hboth => hsource hboth.1.symm]
        rfl

theorem store_keeps (p : DirectoryPackage) (part : PartSpec) (body : Tree) :
    (p.store part body).2.metadata = p.metadata ∧ (p.store part body).2.seeded = p.seeded := by
  unfold store
  split
  · exact ⟨rfl, rfl⟩
  · dsimp only
    split
    · exact ⟨rfl, rfl⟩
    · split
      · exact ⟨rfl, rfl⟩
      · exact ⟨rfl, rfl⟩

/-- A part is refused before anything is asked for, or it is recorded after the asking, unless its
own file or the one that is asked fails, or no number is left for its relationship. -/
theorem createPart_cases (p : DirectoryPackage) (part : PartSpec) (body : Tree) :
    (∃ e, part.obstacle? p.hasPart = some e ∧ p.createPart part body = (.error e, p)) ∨
      part.obstacle? p.hasPart = none ∧ ∃ left, left.seeded = (p.seed part).2.seeded ∧
        ((∃ e, p.createPart part body = (.error e, left) ∧
            left.metadata = (p.seed part).2.metadata) ∨
          ∃ id, p.createPart part body = (.ok ⟨part.name, id⟩, left) ∧
            (p.seed part).2.metadata.Records part left.metadata id) := by
  cases h : part.obstacle? p.hasPart with
  | some e =>
    refine Or.inl ⟨e, rfl, ?_⟩
    rw [createPart, h]
  | none =>
    refine Or.inr ⟨rfl, ?_⟩
    simp only [createPart, h]
    obtain ⟨seeding, seeded⟩ := p.seed part
    cases seeding with
    | error e => exact ⟨seeded, rfl, Or.inl ⟨e, rfl, rfl⟩⟩
    | ok _ =>
      obtain ⟨hmetadata, hseeded⟩ := store_keeps seeded part body
      revert hmetadata hseeded
      dsimp only
      obtain ⟨storing, stored⟩ := seeded.store part body
      intro hmetadata hseeded
      cases storing with
      | error e => exact ⟨stored, hseeded, Or.inl ⟨e, rfl, hmetadata⟩⟩
      | ok _ =>
        have hmetadata' : stored.metadata = seeded.metadata := hmetadata
        dsimp only
        rw [hmetadata']
        rcases seeded.metadata.register_cases part with
          ⟨_, hregister⟩ | ⟨_, metadata, id, hregister, records⟩
        · rw [hregister]
          exact ⟨stored, hseeded, Or.inl ⟨_, rfl, hmetadata'⟩⟩
        · rw [hregister]
          exact ⟨{ stored with metadata, created := stored.created ++ [part.name] }, hseeded,
            Or.inr ⟨id, rfl, records⟩⟩

theorem obstacle?_eq_none (hspec : part.relationship = some spec)
    (hnew : p.hasPart part.name = false) (hsource : p.hasPart spec.source = true) :
    part.obstacle? p.hasPart = none := by
  simp [PartSpec.obstacle?, hspec, hnew, hsource]

theorem asks_iff (h : c.part.obstacle? p.hasPart = none) :
    p.Asks source c ↔ c.part.relationship.map RelationshipSpec.source = some source :=
  and_iff_right h

theorem not_asks_of_obstacle {e : PartError} (h : c.part.obstacle? p.hasPart = some e) :
    ¬ p.Asks source c := by
  intro hasks
  rw [hasks.1] at h
  cases h

theorem obstacle?_of_ok {created : CreatedPart} (h : (p.create c).1 = .ok created) :
    c.part.obstacle? p.hasPart = none := by
  rcases createPart_cases p c.part c.body with ⟨e, _, he⟩ | ⟨hnone, _⟩
  · rw [create, he] at h
    cases h
  · exact hnone

theorem givenTo_of_error {e : PartError} (h : (p.create c).1 = .error e) : p.givenTo c = [] := by
  rw [givenTo, h]

theorem givenTo_of_unrelated (h : c.part.relationship = none) : p.givenTo c = [] := by
  unfold givenTo
  rw [h]
  split
  · next hsome => cases hsome
  · rfl

theorem givenTo_of_related {name id : String} (h : c.part.relationship = some spec)
    (hok : (p.create c).1 = .ok ⟨name, some id⟩) :
    p.givenTo c = [(spec.source, ⟨id, spec.type, c.part.name⟩)] := by
  rw [givenTo, hok, h]

theorem onSource_append (source : String) (entries others : List (String × Relationship)) :
    onSource source (entries ++ others) = onSource source entries ++ onSource source others := by
  rw [onSource, List.filter_append, List.map_append]
  rfl

theorem onSource_singleton (source : String) (entry : String × Relationship) :
    onSource source [entry] = if source = entry.1 then [entry.2] else [] := by
  by_cases h : source = entry.1
  · simp [onSource, h]
  · simp [onSource, h, Ne.symm h]

/-- A source has been asked for once a creation has got as far as that. -/
theorem mem_seeded_create :
    source ∈ (p.create c).2.seeded ↔ source ∈ p.seeded ∨ p.Asks source c := by
  rcases createPart_cases p c.part c.body with ⟨e, hobstacle, he⟩ | ⟨hnone, left, hseeded, hleft⟩
  · rw [create, he, or_iff_left (not_asks_of_obstacle hobstacle)]
  · have hcreate : (p.create c).2 = left := by
      rcases hleft with ⟨e, he, _⟩ | ⟨id, hok, _⟩
      · rw [create, he]
      · rw [create, hok]
    rw [hcreate, hseeded, mem_seeded_seed, asks_iff hnone]

/-- What one creation leaves on a source: all that was there, the list in the source's file if it is
the first to ask for it, and its own relationship. -/
theorem relationshipsOn_create : (p.create c).2.relationshipsOn source =
    (if p.Asks source c ∧ source ∉ p.seeded then
      (p.listed source).foldl Relationship.adjoin (p.relationshipsOn source)
    else p.relationshipsOn source) ++ onSource source (p.givenTo c) := by
  rcases createPart_cases p c.part c.body with ⟨e, hobstacle, he⟩ | ⟨hnone, left, _, hleft⟩
  · rw [givenTo_of_error (congrArg Prod.fst he), create, he,
      if_neg fun h => not_asks_of_obstacle hobstacle h.1]
    exact (List.append_nil _).symm
  · have hseed : (p.seed c.part).2.relationshipsOn source =
        if p.Asks source c ∧ source ∉ p.seeded then
          (p.listed source).foldl Relationship.adjoin (p.relationshipsOn source)
        else p.relationshipsOn source := by
      simp only [asks_iff hnone]
      exact relationshipsOn_seed
    rw [← hseed]
    rcases hleft with ⟨e, he, hmetadata⟩ | ⟨id, hok, records⟩
    · rw [givenTo_of_error (congrArg Prod.fst he), create, he, relationshipsOn, hmetadata]
      exact (List.append_nil _).symm
    · cases hspec : c.part.relationship with
      | none =>
        rw [givenTo_of_unrelated hspec, create, hok, relationshipsOn, (records.unrelated hspec).2]
        exact (List.append_nil _).symm
      | some spec =>
        obtain ⟨next, rfl, _, hsources⟩ := records.related spec hspec
        rw [givenTo_of_related hspec (congrArg Prod.fst hok), create, hok, relationshipsOn,
          hsources, onSource_singleton]
        split
        · rfl
        · exact (List.append_nil _).symm

theorem onSource_givenTo_of_not_asks (h : ¬ p.Asks source c) :
    onSource source (p.givenTo c) = [] := by
  unfold givenTo
  split
  · next name id spec hok hspec =>
    have hother : spec.source ≠ source := by
      rintro rfl
      exact h ⟨obstacle?_of_ok hok, by rw [hspec, Option.map_some]⟩
    rw [onSource_singleton, if_neg hother.symm]
  · rfl

/-! ## Creations -/

theorem relationshipsOn_after_of_seeded (h : source ∈ p.seeded) (cs : List Creation) :
    source ∈ (p.after cs).seeded ∧
      (p.after cs).relationshipsOn source =
        p.relationshipsOn source ++ onSource source (p.given cs) := by
  induction cs generalizing p with
  | nil => exact ⟨h, (List.append_nil _).symm⟩
  | cons c cs ih =>
    obtain ⟨hseeded, hon⟩ := ih (mem_seeded_create.2 (Or.inl h))
    refine ⟨hseeded, hon.trans ?_⟩
    rw [relationshipsOn_create, if_neg fun hboth => hboth.2 h, given, onSource_append,
      List.append_assoc]

/-- From a source that nothing has been asked of, a run either asks and records what it is told and
what it gives out, or it leaves the source alone. -/
theorem relationshipsOn_after_of_unseeded (h : source ∉ p.seeded)
    (hempty : p.relationshipsOn source = []) (cs : List Creation) :
    (source ∈ (p.after cs).seeded ∧ (p.after cs).relationshipsOn source =
        (p.firstListed source cs).foldl Relationship.adjoin [] ++ onSource source (p.given cs)) ∨
      source ∉ (p.after cs).seeded ∧ (p.after cs).relationshipsOn source = [] ∧
        p.firstListed source cs = (p.after cs).listed source ∧
        onSource source (p.given cs) = [] := by
  induction cs generalizing p with
  | nil => exact Or.inr ⟨h, hempty, rfl, rfl⟩
  | cons c cs ih =>
    by_cases hasks : p.Asks source c
    · obtain ⟨hseeded, hon⟩ := relationshipsOn_after_of_seeded
        (mem_seeded_create.2 (Or.inr hasks)) cs
      refine Or.inl ⟨hseeded, hon.trans ?_⟩
      rw [relationshipsOn_create, if_pos ⟨hasks, h⟩, hempty, firstListed, if_pos hasks, given,
        onSource_append, List.append_assoc]
    · have hnew : source ∉ (p.create c).2.seeded := fun hmem =>
        (mem_seeded_create.1 hmem).elim h hasks
      have hnone := onSource_givenTo_of_not_asks hasks
      have hstill : (p.create c).2.relationshipsOn source = [] := by
        rw [relationshipsOn_create, if_neg fun hboth => hasks hboth.1, hempty, hnone]
        rfl
      rw [firstListed, if_neg hasks, given, onSource_append, hnone, List.nil_append]
      exact ih hnew hstill

/-- When a relationship is asked for on a source, nothing is on it but what is known of it. -/
theorem mem_ids_seed_iff (hspec : part.relationship = some spec) (hnew : spec.source ∉ p.seeded)
    (hempty : p.relationshipsOn spec.source = []) (cs : List Creation) (other : String) :
    other ∈ (((p.after cs).seed part).2.relationshipsOn spec.source).map Relationship.id ↔
      other ∈ (p.known spec.source cs).map Relationship.id := by
  rw [relationshipsOn_seed, hspec, Option.map_some, known, List.map_append, List.mem_append]
  rcases relationshipsOn_after_of_unseeded hnew hempty cs with
    ⟨hseeded, hon⟩ | ⟨hunseeded, hon, hlisted, hgiven⟩
  · rw [if_neg fun hboth => hboth.2 hseeded, hon, List.map_append, List.mem_append,
      Relationship.mem_ids_foldl_adjoin]
    simp
  · rw [if_pos ⟨rfl, hunseeded⟩, hon, hgiven, hlisted, Relationship.mem_ids_foldl_adjoin]
    simp

/-- A relationship given out gets the number after all that is known of its source. -/
theorem givenId_eq (hspec : part.relationship = some spec) (hnew : spec.source ∉ p.seeded)
    (hempty : p.relationshipsOn spec.source = []) {created : CreatedPart} {left : DirectoryPackage}
    {id : String} (hok : (p.after cs).createPart part body = (.ok created, left))
    (hid : created.relationshipId = some id) :
    PackageMetadata.nextId (p.known spec.source cs) = .ok id := by
  have hids := mem_ids_seed_iff hspec hnew hempty cs
  rcases createPart_cases (p.after cs) part body with ⟨e, _, he⟩ | ⟨_, left', _, hleft⟩
  · rw [he] at hok
    cases hok
  · rcases hleft with ⟨e, he, _⟩ | ⟨given, hcreated, records⟩
    · rw [he] at hok
      cases hok
    · rw [hcreated] at hok
      cases hok
      obtain ⟨next, rfl, hnext, _⟩ := records.related spec hspec
      cases hid
      rw [← hnext, PackageMetadata.nextId_inj]
      exact (PackageMetadata.greatest_congr hids).symm

theorem mem_ids_onSource {entries : List (String × Relationship)} {id : String} :
    id ∈ (onSource source entries).map Relationship.id ↔
      ∃ entry ∈ entries, entry.1 = source ∧ entry.2.id = id := by
  simp [onSource, and_assoc]

/-- An identifier that is given out has the number after all that is known of its source, and it
meets another one only for one of two reasons: the file has got another list since it was asked, or
another source leads to the file. -/
theorem givenId_collides_iff (root : String) (dryRun : Bool) (files : Files) (cs : List Creation)
    (now : Files) (broken : String → List String) {created : CreatedPart} {left : DirectoryPackage}
    {id : String} (hspec : part.relationship = some spec)
    (hok : ((ofDirectory root dryRun files).after cs).createPart part body = (.ok created, left))
    (hid : created.relationshipId = some id) :
    PackageMetadata.nextId ((ofDirectory root dryRun files).known spec.source cs) = .ok id ∧
      ((ofDirectory root dryRun files).Collides cs now broken spec.source id ↔
        (ofDirectory root dryRun files).ListedSince cs now broken spec.source id ∨
        (ofDirectory root dryRun files).GivenToOther cs spec.source id) := by
  generalize hp : ofDirectory root dryRun files = p at hok ⊢
  have hnext : PackageMetadata.nextId (p.known spec.source cs) = .ok id := by
    subst hp
    exact givenId_eq hspec List.not_mem_nil rfl hok hid
  have hfresh := PackageMetadata.nextId_fresh hnext
  rw [known, List.map_append, List.mem_append, not_or] at hfresh
  refine ⟨hnext, ?_⟩
  constructor
  · rintro (hfile | ⟨entry, hentry, hsame, rfl⟩)
    · exact Or.inl ⟨hfile, hfresh.1⟩
    · refine Or.inr ⟨entry, hentry, fun hsource => hfresh.2 ?_, hsame, rfl⟩
      exact mem_ids_onSource.2 ⟨entry, hentry, hsource, rfl⟩
  · rintro (⟨hfile, _⟩ | ⟨entry, hentry, _, hsame, he⟩)
    · exact Or.inl hfile
    · exact Or.inr ⟨entry, hentry, hsame, he⟩

/-! ## A source with two spellings -/

/-- Parts with a relationship on one file, whose name begins with a slash or does not. -/
def twoSpellings : Registry.Document where
  metadata := ⟨"", none, none⟩
  namespaces := .empty
  elements := .empty
  attributes := .empty
  identifiers := .empty
  values := .empty
  paths := .empty
  fragments := .empty
  parts := .ofList [("q", ⟨"/q.xml", "u", some ⟨"/p.xml", "t"⟩⟩),
    ("r", ⟨"/r.xml", "u", some ⟨"p.xml", "t"⟩⟩), ("s", ⟨"/s.xml", "u", some ⟨"/p.xml", "t"⟩⟩)]

def bareRoot : Tree where
  nodes := #[⟨.document, none, [1]⟩, ⟨.element ⟨.plain "root", [], []⟩, some 0, []⟩]
  header := none

def slashed : Creation := ⟨⟨"/q.xml", "u", some ⟨"/p.xml", "t"⟩⟩, bareRoot⟩

def unslashed : Creation := ⟨⟨"/r.xml", "u", some ⟨"p.xml", "t"⟩⟩, bareRoot⟩

def slashedAgain : Creation := ⟨⟨"/s.xml", "u", some ⟨"/p.xml", "t"⟩⟩, bareRoot⟩

def extracted : DirectoryPackage := ofDirectory "pkg" false ⟨[
  (["pkg"], .directory),
  (["pkg", "p.xml"], .file "<p/>"),
  (["pkg", "_rels"], .directory),
  (["pkg", "_rels", "p.xml.rels"],
    .file "<Relationships><Relationship Id=\"rId1\"/></Relationships>")]⟩

def withOne : DirectoryPackage where
  root := "pkg"
  dryRun := false
  files := ⟨(["pkg", "q.xml"], .file "<root/>") :: extracted.files.items⟩
  created := ["/q.xml"]
  seeded := ["/p.xml"]
  metadata := ⟨.ofList [("/q.xml", "u")],
    .ofList [("/p.xml", [⟨"rId1", "", ""⟩, ⟨"rId2", "t", "/q.xml"⟩])]⟩

def withTwo : DirectoryPackage where
  root := "pkg"
  dryRun := false
  files := ⟨(["pkg", "s.xml"], .file "<root/>") :: withOne.files.items⟩
  created := ["/q.xml", "/s.xml"]
  seeded := ["/p.xml"]
  metadata := ⟨.ofList [("/q.xml", "u"), ("/s.xml", "u")],
    .ofList [("/p.xml",
      [⟨"rId1", "", ""⟩, ⟨"rId2", "t", "/q.xml"⟩, ⟨"rId3", "t", "/s.xml"⟩])]⟩

theorem obstacle?_slashed : slashed.part.obstacle? extracted.hasPart = none :=
  obstacle?_eq_none rfl (by cbv) (by cbv)

theorem create_slashed :
    extracted.create slashed = (.ok ⟨"/q.xml", some "rId2"⟩, withOne) := by
  rw [create, createPart, obstacle?_slashed]
  cbv

theorem create_unslashed : (withOne.create unslashed).1 = .ok ⟨"/r.xml", some "rId2"⟩ := by
  have hobstacle : unslashed.part.obstacle? withOne.hasPart = none :=
    obstacle?_eq_none rfl (by cbv) (by cbv)
  rw [create, createPart, hobstacle]
  cbv

theorem create_slashedAgain :
    withOne.create slashedAgain = (.ok ⟨"/s.xml", some "rId3"⟩, withTwo) := by
  have hobstacle : slashedAgain.part.obstacle? withOne.hasPart = none :=
    obstacle?_eq_none rfl (by cbv) (by cbv)
  rw [create, createPart, hobstacle]
  cbv

/-- Both spellings lead to one file, and its relationships get one identifier. -/
theorem sharedId_of_twoSpellings :
    Registry.compile twoSpellings = .ok twoSpellings.resolved ∧
    twoSpellings.resolved.part? "q" = some slashed.part ∧
    twoSpellings.resolved.part? "r" = some unslashed.part ∧
    extracted.create slashed = (.ok ⟨"/q.xml", some "rId2"⟩, withOne) ∧
    (withOne.create unslashed).1 = .ok ⟨"/r.xml", some "rId2"⟩ ∧
    extracted.SameList "/p.xml" "p.xml" := by
  have hcompile : Registry.compile twoSpellings = .ok twoSpellings.resolved := by
    rw [Registry.compile_eq_ok_iff]
    refine ⟨?_, rfl⟩
    cbv
  refine ⟨hcompile, by cbv, by cbv, create_slashed, create_unslashed, ?_⟩
  rw [SameList]
  cbv

theorem givenId_collides_iff_oneSpelling :
    (extracted.after [slashed]).createPart slashedAgain.part slashedAgain.body =
        (.ok ⟨"/s.xml", some "rId3"⟩, withTwo) ∧
      extracted.known "/p.xml" [slashed] = [⟨"rId1", "", ""⟩, ⟨"rId2", "t", "/q.xml"⟩] ∧
      PackageMetadata.nextId (extracted.known "/p.xml" [slashed]) = .ok "rId3" ∧
      ¬ extracted.Collides [slashed] withTwo.files (fun _ => []) "/p.xml" "rId3" := by
  have hok : (extracted.after [slashed]).createPart slashedAgain.part slashedAgain.body =
      (.ok ⟨"/s.xml", some "rId3"⟩, withTwo) := by
    have hafter : extracted.after [slashed] = withOne := congrArg Prod.snd create_slashed
    rw [hafter]
    exact create_slashedAgain
  have hasks : extracted.Asks "/p.xml" slashed := ⟨obstacle?_slashed, rfl⟩
  have hfirst : extracted.firstListed "/p.xml" [slashed] = [⟨"rId1", "", ""⟩] := by
    rw [firstListed, if_pos hasks]
    cbv
  have hgiven : extracted.given [slashed] = [("/p.xml", ⟨"rId2", "t", "/q.xml"⟩)] := by
    rw [given, givenTo_of_related rfl (congrArg Prod.fst create_slashed)]
    rfl
  have hids : idsIn (fun _ => []) withTwo.files (extracted.listPath "/p.xml") = ["rId1"] := by cbv
  have hextracted : ofDirectory "pkg" false extracted.files = extracted := rfl
  obtain ⟨hnext, hcollides⟩ := givenId_collides_iff "pkg" false extracted.files [slashed]
    withTwo.files (fun _ => []) rfl hok rfl
  rw [hextracted] at hnext hcollides
  refine ⟨hok, ?_, hnext, ?_⟩
  · rw [known, hfirst, hgiven]
    rfl
  · intro h
    rcases hcollides.1 h with ⟨hfile, _⟩ | ⟨entry, hentry, hother, _⟩
    · rw [hids] at hfile
      revert hfile
      decide
    · rw [hgiven, List.mem_singleton] at hentry
      exact hother (congrArg Prod.fst hentry)

end DirectoryPackage

end PartPatch
