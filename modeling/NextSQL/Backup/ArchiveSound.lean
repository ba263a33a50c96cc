import NextSQL.Backup.Archive

/-!
# The archive gives back what was archived

A sealed file opens to the content it was made from (`openMember_sealedFile`).
The invariant `Kept` relates the directory, the archiver and the contents whose
archiving was reported as done: every entry of the index describes a complete
file under the key of the index, except that of a segment which is being
renewed. Each file operation keeps it, and so does every careful run.

Three runs show what happens otherwise: a second archiver over the same
directory seals under a key that the index does not have; a crash during a
renewal leaves the new or no file under the old entry; and the number of entries
is stored modulo 65536.
-/

namespace NextSQL.Backup

open Function

open GuardedRuns List

/-! ## Sealing and opening -/

variable {content : Bytes} {fuel : ℕ}

theorem splitChunks_flatten (enough : content.length ≤ fuel) :
    (splitChunks fuel content).flatten = content := by
  induction fuel generalizing content with
  | zero =>
    rw [length_eq_zero_iff.mp (Nat.le_zero.mp enough)]
    rfl
  | succ fuel ih =>
    unfold splitChunks
    split
    · rename_i none
      rw [List.isEmpty_iff.mp none]
      rfl
    have less : (content.drop defaultChunk).length ≤ fuel := by
      rw [length_drop]
      unfold defaultChunk
      omega
    rw [flatten_cons, ih less, take_append_drop]

theorem splitChunks_ne_nil {plain : Bytes} (member : plain ∈ splitChunks fuel content) :
    plain ≠ [] := by
  induction fuel generalizing content with
  | zero => cases member
  | succ fuel ih =>
    unfold splitChunks at member
    split at member
    · cases member
    rename_i some
    obtain rfl | later := mem_cons.mp member
    · intro none
      obtain zero | empty := take_eq_nil_iff.mp none
      · cases zero
      · exact some (List.isEmpty_iff.mpr empty)
    · exact ih later

theorem sealChunks_append (key gen name : ℕ) (n : ℕ) (done more : List Bytes) :
    sealChunks key gen name n (done ++ more) =
      sealChunks key gen name n done ++ sealChunks key gen name (n + done.length) more := by
  induction done generalizing n with
  | nil => rfl
  | cons plain rest ih =>
    simp only [cons_append, sealChunks, ih, length_cons]
    rw [show n + 1 + rest.length = n + (rest.length + 1) by omega]

variable {key gen name : ℕ}

theorem openChunks_sealChunks {pieces : List Bytes} (nonempty : ∀ plain ∈ pieces, plain ≠ [])
    (got n : ℕ) :
    openChunks key name (got + pieces.flatten.length) got n (sealChunks key gen name n pieces) =
      .ok pieces.flatten := by
  induction pieces generalizing got n with
  | nil =>
    simp only [flatten_nil, length_nil, Nat.add_zero, sealChunks, openChunks,
      lt_irrefl, if_false, if_true]
  | cons plain rest ih =>
    have some : 0 < plain.length :=
      length_pos_iff.mpr (nonempty plain mem_cons_self)
    have later := ih (fun p member => nonempty p (mem_cons_of_mem _ member))
      (got + plain.length) (n + 1)
    have whole : got + (plain :: rest).flatten.length =
        got + plain.length + rest.flatten.length := by
      rw [flatten_cons, length_append]
      omega
    rw [whole]
    simp only [sealChunks, openChunks]
    rw [if_pos (by omega), openBytes, if_pos ⟨rfl, rfl, rfl⟩]
    exact Except.bind_eq_ok_iff.mpr ⟨plain, rfl, Except.bind_eq_ok_iff.mpr ⟨_, later, rfl⟩⟩

/-- The complete file of a content. -/
def sealedFile (key gen name : ℕ) (content : Bytes) : SegmentFile where
  header := some ⟨content.length, gen⟩
  chunks := sealChunks key gen name 0 (splitChunks content.length content)

/-- **A sealed file opens to its content.** -/
theorem openMember_sealedFile (content : Bytes) (used : gen ≠ 0) :
    openMember key name (sealedFile key gen name content) = .ok content := by
  have whole : (splitChunks content.length content).flatten = content :=
    splitChunks_flatten (le_rfl)
  have opened := @openChunks_sealChunks key gen name (splitChunks content.length content)
    (fun plain member => splitChunks_ne_nil member) 0 0
  rw [whole, Nat.zero_add] at opened
  exact (if_neg used).trans opened

/-! ## Entries -/

section Entries

variable {Hash : Type} {ent e : ArchiveEntry Hash} {entries : List (ArchiveEntry Hash)}

theorem mem_putEntry (member : e ∈ putEntry ent entries) : e = ent ∨ e ∈ entries := by
  induction entries with
  | nil => exact .inl (mem_singleton.mp member)
  | cons first rest ih =>
    unfold putEntry at member
    split at member
    · obtain rfl | later := mem_cons.mp member
      · exact .inl rfl
      · exact .inr (mem_cons_of_mem _ later)
    · obtain rfl | later := mem_cons.mp member
      · exact .inr mem_cons_self
      · exact (ih later).imp_right (mem_cons_of_mem _)

theorem putEntry_self_mem (ent : ArchiveEntry Hash) (entries : List (ArchiveEntry Hash)) :
    ent ∈ putEntry ent entries := by
  induction entries with
  | nil => exact mem_singleton.mpr rfl
  | cons first rest ih =>
    unfold putEntry
    split
    · exact mem_cons_self
    · exact mem_cons_of_mem _ ih

/-- The identifiers of the entries: one is added unless it is there. -/
theorem ids_putEntry :
    (putEntry ent entries).map ArchiveEntry.id =
      if ent.id ∈ entries.map ArchiveEntry.id then entries.map ArchiveEntry.id
      else entries.map ArchiveEntry.id ++ [ent.id] := by
  induction entries with
  | nil => rfl
  | cons first rest ih =>
    unfold putEntry
    by_cases same : first.id = ent.id
    · rw [if_pos same, if_pos (by simp [same]), map_cons, map_cons, same]
    rw [if_neg same, map_cons, map_cons, ih]
    by_cases later : ent.id ∈ rest.map ArchiveEntry.id
    · rw [if_pos later, if_pos (mem_cons_of_mem _ later)]
    rw [if_neg later, if_neg]
    · rfl
    rintro member
    obtain here | there := mem_cons.mp member
    · exact same here.symm
    · exact later there

end Entries

/-! ## The invariant -/

variable {Hash : Type} {digest : SegmentFile → Hash} {dir : ArchiveDir Hash}

theorem has_iff {id : ℕ} :
    dir.has id ↔ ∃ ix, dir.index = some ix ∧ ∃ e ∈ ix.entries, e.id = id := by
  unfold ArchiveDir.has
  rw [Option.any_eq_true_iff_get]
  cases dir.index with
  | none => simp
  | some ix => simp

/-- The entry describes a complete file of the content under the key. -/
def Recorded (digest : SegmentFile → Hash) (dir : ArchiveDir Hash) (key : ℕ)
    (e : ArchiveEntry Hash) (content : Bytes) : Prop :=
  ∃ gen, gen ≠ 0 ∧ dir.file e.id = some (sealedFile key gen e.id content) ∧
    e.sum = digest (sealedFile key gen e.id content) ∧
    e.sealedSize = (sealedFile key gen e.id content).size

/-- What the file operations of a call have done so far. -/
def Progress (digest : SegmentFile → Hash) (dir : ArchiveDir Hash) (key gen : ℕ)
    (c : Call Hash) : Prop :=
  match c.stage with
  | .remove => True
  | .create => c.again = true → dir.file c.id = none
  | .header => dir.file c.id = some {}
  | .chunk rest n => ∃ done, done ++ rest = splitChunks c.content.length c.content ∧
      n = done.length ∧
      dir.file c.id = some ⟨some ⟨c.content.length, gen⟩, sealChunks key gen c.id 0 done⟩
  | .sync => dir.file c.id = some (sealedFile key gen c.id c.content)
  | .readIndex => ∃ g, g ≠ 0 ∧ dir.file c.id = some (sealedFile key g c.id c.content)
  | .writeTmp ix | .rename ix => ∃ g, g ≠ 0 ∧
      dir.file c.id = some (sealedFile key g c.id c.content) ∧
      ix = newIndex digest ⟨key, gen, none⟩ c (sealedFile key g c.id c.content) dir.index
  | .syncDir => ∃ ix e, dir.index = some ix ∧ e ∈ ix.entries ∧ e.id = c.id ∧
      Recorded digest dir ix.wrap e c.content

/-- The index has been replaced and only the directory is left to be synced. -/
def Stage.last : Stage Hash → Bool
  | .syncDir => true
  | _ => false

/-- A call in progress, with the archiver's key and counter. -/
structure InCall (digest : SegmentFile → Hash) (dir : ArchiveDir Hash)
    (archived : ℕ → Option Bytes) (key gen : ℕ) (c : Call Hash) : Prop where
  own : ∀ ix, dir.index = some ix → ix.wrap = key
  fresh : c.again = false → archived c.id = none
  absent : c.again = false → c.stage.last = false → dir.has c.id = false
  room : c.stage.last = false → dir.has c.id = true ∨
    ∀ ix, dir.index = some ix → ix.entries.length + 1 < countLimit
  progress : Progress digest dir key gen c

/-- The entries of the index are good, except that of the segment being renewed. -/
structure Kept (digest : SegmentFile → Hash) (dir : ArchiveDir Hash)
    (archived : ℕ → Option Bytes) (renewed : ℕ → Prop) : Prop where
  fits : ∀ ix, dir.index = some ix → ix.entries.length < countLimit
  nodup : ∀ ix, dir.index = some ix → (ix.entries.map ArchiveEntry.id).Nodup
  listed : ∀ id v, archived id = some v → dir.has id = true
  recorded : ∀ ix e, dir.index = some ix → e ∈ ix.entries → ¬ renewed e.id →
    ∃ v, Recorded digest dir ix.wrap e v ∧ (archived e.id = none ∨ archived e.id = some v)

/-- The segment that the call renews, if it does. -/
def Call.renews (c : Call Hash) (id : ℕ) : Prop := c.again = true ∧ c.id = id

/-- The invariant of the runs. -/
def State.Good (digest : SegmentFile → Hash) (s : State Hash) : Prop :=
  match s.archiver with
  | none => Kept digest s.dir s.archived fun _ => False
  | some ⟨_, gen, none⟩ => gen ≠ 0 ∧ Kept digest s.dir s.archived fun _ => False
  | some ⟨key, gen, some c⟩ => gen ≠ 0 ∧ Kept digest s.dir s.archived c.renews ∧
      InCall digest s.dir s.archived key gen c

/-! ## The steps -/

section Steps

variable {s : State Hash} {key gen : ℕ} {c : Call Hash} {dir dir' : ArchiveDir Hash}

theorem has_congr (same : dir'.index = dir.index) (id : ℕ) : dir'.has id = dir.has id := by
  unfold ArchiveDir.has
  rw [same]

variable {archived : ℕ → Option Bytes} {renewed : ℕ → Prop}

/-- The files of the entries are as they were. -/
theorem Kept.of_files {renewed' : ℕ → Prop} (kept : Kept digest dir archived renewed)
    (index : dir'.index = dir.index) (fewer : ∀ id, renewed id → renewed' id)
    (files : ∀ id, dir.has id → ¬ renewed' id → dir'.file id = dir.file id) :
    Kept digest dir' archived renewed' where
  fits ix found := kept.fits ix (index ▸ found)
  nodup ix found := kept.nodup ix (index ▸ found)
  listed id v done := (has_congr index id).trans (kept.listed id v done)
  recorded ix e found member still := by
    rw [index] at found
    obtain ⟨v, ⟨g, used, file, sum, size⟩, last⟩ :=
      kept.recorded ix e found member fun old => still (fewer _ old)
    have present : dir.has e.id := has_iff.mpr ⟨ix, found, e, member, rfl⟩
    exact ⟨v, ⟨g, used, (files e.id present still).trans file, sum, size⟩, last⟩

theorem Kept.readArchiveIndex_eq (kept : Kept digest dir archived renewed) :
    readArchiveIndex dir = .ok dir.index := by
  unfold readArchiveIndex
  cases found : dir.index with
  | none => rfl
  | some ix => exact if_pos (Nat.mod_eq_of_lt (kept.fits ix found))

variable {id : ℕ}

/-- An operation before the index is replaced touches no file of a good entry. -/
theorem InCall.other_of_has (call : InCall digest dir archived key gen c)
    (early : c.stage.last = false) (present : dir.has id) (still : ¬ c.renews id) :
    id ≠ c.id := by
  rintro rfl
  cases again : c.again with
  | true => exact still ⟨again, rfl⟩
  | false =>
    rw [call.absent again early] at present
    cases present

/-- The call goes on to an operation before the index is replaced. -/
theorem good_go {gen' : ℕ} {stage : Stage Hash} (used : gen' ≠ 0)
    (kept : Kept digest s.dir s.archived c.renews) (call : InCall digest s.dir s.archived key gen c)
    (early : c.stage.last = false) (index : dir'.index = s.dir.index)
    (files : ∀ id, id ≠ c.id → dir'.file id = s.dir.file id)
    (progress : Progress digest dir' key gen' { c with stage := stage }) :
    (s.go ⟨key, gen', none⟩ c dir' stage).Good digest := by
  refine ⟨used, ?_, ?_⟩
  · exact kept.of_files index (fun _ renews => renews) fun id present still =>
      files id (call.other_of_has early present still)
  exact {
    own := fun ix found => call.own ix (index ▸ found)
    fresh := call.fresh
    absent := fun again _ => (has_congr index c.id).trans (call.absent again early)
    room := fun _ => (call.room early).imp (fun present => (has_congr index c.id).trans present)
      fun room ix found => room ix (index ▸ found)
    progress := progress }

/-- The call fails, without having touched a file of an entry. -/
theorem good_fail (used : gen ≠ 0) (kept : Kept digest s.dir s.archived c.renews)
    (first : c.again = false) (index : dir'.index = s.dir.index)
    (files : ∀ id, s.dir.has id → dir'.file id = s.dir.file id) :
    (s.fail ⟨key, gen, none⟩ dir').Good digest := by
  refine ⟨used, kept.of_files index ?_ fun id present _ => files id present⟩
  rintro id ⟨again, -⟩
  rw [first] at again
  cases again

theorem setFile_of_ne {other : ℕ} (f : Option SegmentFile) (apart : other ≠ id) :
    (dir.setFile id f).file other = dir.file other :=
  update_of_ne apart ..

/-- A failed call that takes its unfinished file away. -/
theorem good_fail_removing (used : gen ≠ 0) (kept : Kept digest s.dir s.archived c.renews)
    (call : InCall digest s.dir s.archived key gen c) (early : c.stage.last = false)
    (first : c.again = false) :
    (s.fail ⟨key, gen, none⟩ (s.dir.setFile c.id none)).Good digest := by
  refine good_fail used kept first rfl fun id present => setFile_of_ne none ?_
  refine call.other_of_has early present ?_
  rintro ⟨again, -⟩
  rw [first] at again
  cases again

variable {a : DirArchiver Hash} {f : SegmentFile}

theorem has_newIndex (present : dir.has id) :
    ∃ e ∈ (newIndex digest a c f dir.index).entries, e.id = id := by
  obtain ⟨ix, found, e, member, rfl⟩ := has_iff.mp present
  have listed : e.id ∈ (putEntry (c.entry digest f) ix.entries).map ArchiveEntry.id := by
    rw [ids_putEntry]
    split
    · exact mem_map_of_mem member
    · exact mem_append_left _ (mem_map_of_mem member)
  rw [found]
  obtain ⟨e', inside, same⟩ := mem_map.mp listed
  exact ⟨e', inside, same⟩

/-- The number of entries and their identifiers after the call's entry is put in. -/
theorem newIndex_spec (kept : Kept digest s.dir s.archived c.renews)
    (call : InCall digest s.dir s.archived key gen c) (early : c.stage.last = false) :
    (newIndex digest a c f s.dir.index).entries.length < countLimit ∧
      ((newIndex digest a c f s.dir.index).entries.map ArchiveEntry.id).Nodup := by
  cases found : s.dir.index with
  | none => exact ⟨by simp [newIndex, countLimit], by simp [newIndex]⟩
  | some ix =>
    have ids : (newIndex digest a c f (some ix)).entries.map ArchiveEntry.id = _ :=
      ids_putEntry
    have length := congrArg List.length ids
    rw [length_map] at length
    rw [length, ids]
    have nodup := kept.nodup ix found
    have fits := kept.fits ix found
    split
    · exact ⟨by rwa [length_map], nodup⟩
    rename_i absent
    have new : s.dir.has c.id = false := by
      rw [Bool.eq_false_iff, Ne, has_iff]
      rintro ⟨ix', found', e, member, same⟩
      cases found.symm.trans found'
      exact absent (show c.id ∈ _ from same ▸ mem_map_of_mem member)
    constructor
    · obtain present | room := call.room early
      · rw [new] at present
        cases present
      · have := room ix found
        rw [length_append, length_map, length_singleton]
        omega
    · exact nodup_append.mpr ⟨nodup, nodup_singleton _, fun x member y single => by
        rw [mem_singleton.mp single]
        rintro rfl
        exact absent member⟩

section

variable (used : gen ≠ 0) (kept : Kept digest s.dir s.archived c.renews)

include used kept

/-- The index with the entry of the sealed file takes the place of the old one. -/
theorem good_rename {g : ℕ} (call : InCall digest s.dir s.archived key gen c)
    (early : c.stage.last = false) (sealedUsed : g ≠ 0)
    (file : s.dir.file c.id = some (sealedFile key g c.id c.content)) :
    (s.go ⟨key, gen, none⟩ c { s.dir with
        index := some (newIndex digest ⟨key, gen, none⟩ c (sealedFile key g c.id c.content)
          s.dir.index)
        tmp := none } .syncDir).Good digest := by
  have wrap : (newIndex digest ⟨key, gen, none⟩ c (sealedFile key g c.id c.content)
      s.dir.index).wrap = key := by
    cases found : s.dir.index with
    | none => rfl
    | some ix => exact call.own ix found
  have entry : c.entry digest (sealedFile key g c.id c.content) ∈
      (newIndex digest ⟨key, gen, none⟩ c (sealedFile key g c.id c.content)
        s.dir.index).entries := by
    cases s.dir.index with
    | none => exact mem_singleton.mpr rfl
    | some ix => exact putEntry_self_mem _ ix.entries
  have cover := @newIndex_spec _ digest s key gen c ⟨key, gen, none⟩
    (sealedFile key g c.id c.content) kept call early
  refine ⟨used, ?_, ?_⟩
  · refine ⟨?_, ?_, ?_, ?_⟩
    · rintro ix ⟨⟩
      exact cover.1
    · rintro ix ⟨⟩
      exact cover.2
    · intro id v done
      obtain ⟨e, member, same⟩ := has_newIndex (kept.listed id v done)
      exact has_iff.mpr ⟨_, rfl, e, member, same⟩
    rintro ix e ⟨⟩ member still
    rw [wrap]
    have old : e = c.entry digest (sealedFile key g c.id c.content) ∨
        ∃ ix, s.dir.index = some ix ∧ e ∈ ix.entries := by
      cases found : s.dir.index with
      | none =>
        rw [found] at member
        exact .inl (mem_singleton.mp member)
      | some ix =>
        rw [found] at member
        exact (mem_putEntry member).imp_right fun inside => ⟨ix, rfl, inside⟩
    obtain rfl | ⟨ix, found, inside⟩ := old
    · have first : c.again = false := by
        cases again : c.again with
        | false => rfl
        | true => exact absurd ⟨again, rfl⟩ still
      exact ⟨c.content, ⟨g, sealedUsed, file, rfl, rfl⟩, .inl (call.fresh first)⟩
    · obtain ⟨v, recorded, last⟩ := kept.recorded ix e found inside still
      rw [call.own ix found] at recorded
      exact ⟨v, recorded, last⟩
  exact {
    own := fun ix found => by cases found; exact wrap
    fresh := call.fresh
    absent := nofun
    room := nofun
    progress := ⟨_, _, rfl, entry, rfl, g, sealedUsed, by rw [wrap]; exact file,
      by rw [wrap]; rfl, by rw [wrap]; rfl⟩ }

theorem good_done (progress : Progress digest s.dir key gen { c with stage := .syncDir }) :
    State.Good digest { s with
      archiver := some ⟨key, gen, none⟩
      archived := update s.archived c.id (some c.content) } := by
  obtain ⟨ix, e, found, member, same, recorded⟩ := progress
  refine ⟨used, kept.fits, kept.nodup, ?_, ?_⟩
  · intro id v done
    by_cases here : id = c.id
    · exact has_iff.mpr ⟨ix, found, e, member, same.trans here.symm⟩
    · have before : s.archived id = some v := (update_of_ne here ..).symm.trans done
      exact kept.listed id v before
  intro ix' e' found' member' _
  cases found.symm.trans found'
  by_cases here : e'.id = c.id
  · have one : e' = e := inj_on_of_nodup_map (kept.nodup ix found) member' member
      (here.trans same.symm)
    rw [one]
    exact ⟨c.content, recorded, .inr (by rw [same]; exact update_self ..)⟩
  · obtain ⟨v, good, last⟩ := kept.recorded ix e' found member' fun renews => here renews.2.symm
    have before : update s.archived c.id (some c.content) e'.id = s.archived e'.id :=
      update_of_ne here ..
    exact ⟨v, good, last.imp before.trans before.trans⟩

/-- **One file operation** keeps the invariant, unless it fails during a renewal. -/
theorem op_good (call : InCall digest s.dir s.archived key gen c) {ok : Bool}
    (careful : ok ∨ c.again = false) : (s.op digest ⟨key, gen, none⟩ c ok).Good digest := by
  have progress := call.progress
  have whenFailed : ok = false → c.again = false := by
    intro failed
    obtain done | first := careful
    · rw [failed] at done
      cases done
    · exact first
  have early : ∀ {now}, c.stage = now → now.last = false → c.stage.last = false := by
    rintro _ rfl isEarly
    exact isEarly
  unfold Progress at progress
  unfold State.op
  cases stage : c.stage with
  | remove =>
    refine good_go used kept call (early stage rfl) ?_ ?_ ?_
    · cases ok <;> rfl
    · intro id apart
      cases ok with
      | false => rfl
      | true => exact setFile_of_ne none apart
    intro again
    cases ok with
    | false =>
      have first := whenFailed rfl
      rw [first] at again
      cases again
    | true => exact update_self ..
  | create =>
    rw [stage] at progress
    cases file : s.dir.file c.id with
    | none =>
      cases ok with
      | false => exact good_fail used kept (whenFailed rfl) rfl fun _ _ => rfl
      | true =>
        refine good_go used kept call (early stage rfl) rfl (fun id => setFile_of_ne _) ?_
        exact update_self ..
    | some f =>
      have first : c.again = false := by
        cases again : c.again with
        | false => rfl
        | true => cases file.symm.trans (progress again)
      exact good_fail used kept first rfl fun _ _ => rfl
  | header =>
    rw [stage] at progress
    rw [progress]
    cases ok with
    | false => exact good_fail_removing used kept call (early stage rfl) (whenFailed rfl)
    | true =>
      refine good_go used kept call (early stage rfl) rfl (fun id => setFile_of_ne _) ?_
      exact ⟨[], rfl, rfl, update_self ..⟩
  | chunk rest n =>
    rw [stage] at progress
    obtain ⟨done, whole, rfl, file⟩ := progress
    rw [file]
    cases rest with
    | nil =>
      refine good_go used kept call (early stage rfl) rfl (fun _ _ => rfl) ?_
      rw [append_nil] at whole
      rw [whole] at file
      exact file
    | cons plain rest =>
      cases ok with
      | false => exact good_fail_removing used kept call (early stage rfl) (whenFailed rfl)
      | true =>
        refine good_go used kept call (early stage rfl) rfl (fun id => setFile_of_ne _) ?_
        refine ⟨done ++ [plain], by simpa using whole, by simp, ?_⟩
        rw [sealChunks_append, Nat.zero_add]
        exact update_self ..
  | sync =>
    rw [stage] at progress
    rw [progress]
    cases ok with
    | false => exact good_fail_removing used kept call (early stage rfl) (whenFailed rfl)
    | true =>
      exact good_go (Nat.add_pos_left (Nat.pos_of_ne_zero used) _).ne' kept call (early stage rfl) rfl
        (fun _ _ => rfl) ⟨gen, used, progress⟩
  | readIndex =>
    rw [stage] at progress
    obtain ⟨g, sealedUsed, file⟩ := progress
    have cover := @newIndex_spec _ digest s key gen c ⟨key, gen, none⟩
      (sealedFile key g c.id c.content) kept call (early stage rfl)
    have read := kept.readArchiveIndex_eq
    have few : ¬ maxArchiveEnt < (newIndex digest ⟨key, gen, none⟩ c
        (sealedFile key g c.id c.content) s.dir.index).entries.length := by
      have := cover.1
      unfold countLimit at this
      unfold maxArchiveEnt
      omega
    rw [file]
    simp only [read, few, decide_false, Bool.or_false]
    cases ok with
    | false => exact good_fail used kept (whenFailed rfl) rfl fun _ _ => rfl
    | true =>
      exact good_go used kept call (early stage rfl) rfl (fun _ _ => rfl) ⟨g, sealedUsed, file, rfl⟩
  | writeTmp ix =>
    rw [stage] at progress
    obtain ⟨g, sealedUsed, file, same⟩ := progress
    rw [file]
    cases ok with
    | false => exact good_fail used kept (whenFailed rfl) rfl fun _ _ => rfl
    | true =>
      exact good_go used kept call (early stage rfl) rfl (fun _ _ => rfl) ⟨g, sealedUsed, file, same⟩
  | rename ix =>
    rw [stage] at progress
    obtain ⟨g, sealedUsed, file, same⟩ := progress
    rw [file]
    cases ok with
    | false => exact good_fail used kept (whenFailed rfl) rfl fun _ _ => rfl
    | true =>
      rw [same]
      exact good_rename used kept call (early stage rfl) sealedUsed file
  | syncDir =>
    rw [stage] at progress
    obtain ⟨ix, e, found, member, same, g, sealedUsed, file, sum, size⟩ := progress
    rw [← same, file]
    cases ok with
    | false => exact good_fail used kept (whenFailed rfl) rfl fun _ _ => rfl
    | true =>
      rw [same]
      exact good_done used kept
        ⟨ix, e, found, member, same, g, sealedUsed, file, sum, size⟩

end

end Steps

variable {s : State Hash}

theorem step_good {s' : State Hash} {label : Label} (good : s.Good digest)
    (careful : s.careful label) (step : s.Steps digest label s') : s'.Good digest := by
  obtain ⟨dir, nextKey, archiver, archived⟩ := s
  cases label with
  | start =>
    cases archiver with
    | some a => cases step
    | none =>
      cases step
      exact ⟨Nat.one_ne_zero, good⟩
  | crash =>
    cases step
    match archiver, good with
    | none, good => exact good
    | some ⟨_, _, none⟩, good => exact good.2
    | some ⟨_, _, some c⟩, good =>
      have first : c.again = false := by simpa [State.careful, State.renewing] using careful
      refine good.2.1.of_files rfl ?_ fun _ _ _ => rfl
      rintro id ⟨again, -⟩
      rw [first] at again
      cases again
  | archive id first last content =>
    match archiver, step with
    | some ⟨key, gen, none⟩, step =>
      cases step
      simp only [State.careful, Bool.and_eq_true, Bool.or_eq_true, Option.all_some,
        beq_iff_eq, decide_eq_true_eq, Option.all_eq_true_iff_get] at careful
      have fresh : dir.has id = false → archived id = none := by
        intro new
        cases done : archived id with
        | none => rfl
        | some v =>
          rw [good.2.listed id v done] at new
          cases new
      refine ⟨good.1, good.2.of_files rfl (fun _ => False.elim) fun _ _ _ => rfl, ?_⟩
      exact {
        own := fun ix found => by
          simp_all
        fresh := fresh
        absent := fun new _ => new
        room := fun _ => careful.2.imp_right fun room ix found => by simp_all
        progress := trivial }
  | op ok =>
    match archiver, step with
    | some ⟨key, gen, some c⟩, step =>
      cases step
      refine op_good good.1 good.2.1 good.2.2 ?_
      simpa [State.careful, State.renewing] using careful

/-! ## Restoring -/

variable [DecidableEq Hash]

theorem restoreEntry_of_recorded {e : ArchiveEntry Hash}
    (recorded : Recorded digest dir key e content) :
    restoreEntry digest dir key e = .ok (e.id, content) := by
  obtain ⟨gen, used, file, sum, size⟩ := recorded
  unfold restoreEntry
  rw [file]
  have same : ¬ (digest (sealedFile key gen e.id content) ≠ e.sum ∨
      (sealedFile key gen e.id content).size ≠ e.sealedSize) := by
    rw [sum, size]
    simp
  change (if _ then _ else _) = _
  rw [if_neg same, openMember_sealedFile content used]
  rfl

/-- A list of good entries is restored, every one of them that the bound does not
leave out. -/
theorem restoreEntries_spec (until_ : ℕ) {entries : List (ArchiveEntry Hash)}
    (recorded : ∀ e ∈ entries, ∃ v, Recorded digest dir key e v) :
    ∃ out, restoreEntries digest dir key until_ entries = .ok out ∧
      ∀ e ∈ entries, ∀ v, Recorded digest dir key e v → until_ = 0 ∨ e.firstLSN ≤ until_ →
        (e.id, v) ∈ out := by
  induction entries with
  | nil => exact ⟨[], rfl, nofun⟩
  | cons first rest ih =>
    obtain ⟨out, done, every⟩ := ih fun e member => recorded e (mem_cons_of_mem _ member)
    unfold restoreEntries
    split
    · rename_i beyond
      refine ⟨out, done, ?_⟩
      intro e member v good within
      obtain rfl | later := mem_cons.mp member
      · omega
      · exact every e later v good within
    obtain ⟨w, here⟩ := recorded first mem_cons_self
    have opened := restoreEntry_of_recorded here
    refine ⟨(first.id, w) :: out, ?_, ?_⟩
    · rw [opened, done]
      rfl
    intro e member v good within
    obtain rfl | later := mem_cons.mp member
    · have same := opened.symm.trans (restoreEntry_of_recorded good)
      cases same
      exact mem_cons_self
    · exact mem_cons_of_mem _ (every e later v good within)

omit [DecidableEq Hash] in
theorem idle_kept (good : s.Good digest) (idle : s.idle) :
    Kept digest s.dir s.archived fun _ => False := by
  obtain ⟨dir, nextKey, archiver, archived⟩ := s
  match archiver, good with
  | none, good => exact good
  | some ⟨_, _, none⟩, good => exact good.2
  | some ⟨_, _, some c⟩, _ => cases idle

/-- **The archive gives back what was archived.** After a careful run, when no call is
in progress, the archive applies: every segment of the index is written out, with the
content of the last call for it that returned success if there is one, and every
segment with such a call is in the index. -/
theorem archive_restores {labels : List Label} {s : State Hash}
    (run : Run (State.Steps digest) (fun s label => s.careful label = true) {} labels s)
    (idle : s.idle = true) (until_ : ℕ) :
    ∃ out, applyArchive digest s.dir until_ = .ok out ∧
      (∀ ix e, s.dir.index = some ix → e ∈ ix.entries → until_ = 0 ∨ e.firstLSN ≤ until_ →
        ∃ v, (e.id, v) ∈ out ∧ (s.archived e.id = none ∨ s.archived e.id = some v)) ∧
      ∀ id v, s.archived id = some v → ∃ ix, s.dir.index = some ix ∧
        ∃ e ∈ ix.entries, e.id = id := by
  have initial : State.Good digest {} :=
    ⟨fun _ found => (nomatch found), fun _ found => (nomatch found), nofun,
      fun _ _ found => (nomatch found)⟩
  have good : s.Good digest := run.invariant (State.Good digest) initial step_good
  have kept := idle_kept good idle
  have listed := fun id v done => has_iff.mp (kept.listed id v done)
  unfold applyArchive
  rw [kept.readArchiveIndex_eq]
  cases found : s.dir.index with
  | none =>
    refine ⟨[], rfl, fun _ _ absent => (nomatch absent), ?_⟩
    intro id v done
    obtain ⟨ix, there, -⟩ := listed id v done
    cases found.symm.trans there
  | some ix =>
    have recorded : ∀ e ∈ ix.entries, ∃ v, Recorded digest s.dir ix.wrap e v := by
      intro e member
      obtain ⟨v, here, -⟩ := kept.recorded ix e found member id
      exact ⟨v, here⟩
    obtain ⟨out, done, every⟩ := restoreEntries_spec until_ recorded
    refine ⟨out, done, ?_, ?_⟩
    · rintro _ e ⟨⟩ member within
      obtain ⟨v, here, last⟩ := kept.recorded ix e found member id
      exact ⟨v, every e member v here within, last⟩
    intro id v stored
    obtain ⟨ix', there, e, member, same⟩ := listed id v stored
    cases found.symm.trans there
    exact ⟨ix, rfl, e, member, same⟩

namespace Renewed

/-- A complete call of `Archive` for a segment of one piece. -/
def whole (id : ℕ) (content : Bytes) : List Label :=
  .archive id 1 2 content :: List.replicate 10 (.op true)

/-- The process ends while a second segment is archived. -/
def cutShort : List Label :=
  [.start] ++ whole 1 [7] ++ [.archive 2 3 4 [8], .op true, .op true, .crash]

/-- The segment that was archived before the crash is given back. -/
theorem archive_restores_cutShort :
    ∃ s : State SegmentFile, s.archived 1 = some [7] ∧
      ∃ out, applyArchive id s.dir 0 = .ok out ∧ (1, [7]) ∈ out := by
  obtain ⟨s, run, idle, stored⟩ : ∃ s : State SegmentFile,
      Run (State.Steps id) (fun s label => s.careful label = true) {} cutShort s ∧
        s.idle ∧ s.archived 1 = some [7] :=
    exists_run_of_exec (State.step? id) State.careful id (by decide +kernel)
  obtain ⟨out, applied, every, listed⟩ := archive_restores run idle 0
  obtain ⟨ix, found, e, member, same⟩ := listed 1 [7] stored
  obtain ⟨v, inside, last⟩ := every ix e found member (.inl rfl)
  rw [same] at inside last
  refine ⟨s, stored, out, applied, ?_⟩
  obtain none | some := last
  · cases stored.symm.trans none
  · cases stored.symm.trans some
    exact inside

/-- A new archiver takes over for the second segment. -/
def twoArchivers : List Label :=
  [.start] ++ whole 1 [7] ++ [.crash, .start] ++ whole 2 [8] ++ [.crash]

/-- The process ends while the first segment, which has grown, is archived again. -/
def renewalCutShort : List Label :=
  [.start] ++ whole 1 [7] ++ [.archive 1 1 3 [7, 7], .op true, .crash]

/-- In both runs a content that was reported as archived is not given back: the archive
does not apply. -/
theorem archived_is_lost :
    (∃ s : State SegmentFile, Run (State.Steps id) unguarded {} twoArchivers s ∧
      s.archived 2 = some [8] ∧ (applyArchive id s.dir 0).isOk = false) ∧
    ∃ s : State SegmentFile, Run (State.Steps id) unguarded {} renewalCutShort s ∧
      s.archived 1 = some [7] ∧ (applyArchive id s.dir 0).isOk = false := by
  constructor
  · exact exists_run_of_exec (State.step? id) (fun _ _ => true) (fun _ => trivial)
      (by decide +kernel)
  · exact exists_run_of_exec (State.step? id) (fun _ _ => true) (fun _ => trivial)
      (by decide +kernel)

end Renewed

end NextSQL.Backup
