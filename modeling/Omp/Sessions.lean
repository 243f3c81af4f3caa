import Omp.Concrete
import Omp.Lib.Tiling
import Omp.Uploads

/-!
# What a session holds

The directory of a session holds its state and the chunks that were written, each in a file that
is named after its offset.  A chunk that is written again replaces the one before it, so it is the
last chunk at each offset that counts.

`assemble` lists these files in whatever order the file system has them, and reads them in the
order of their offsets.  It succeeds exactly when they tile the interval up to the declared size.

## Main definitions

* `Session` : what the directory of a session holds.
* `lastWritten` : the last chunk at each offset.

## Main results

* `Session.run_writeChunk` : a chunk within the declared size is stored.
* `Session.run_writeChunk_over` : any other is refused.
* `Session.run_assemble` : what is assembled.
* `assembly_exact` : a session is assembled exactly when its last chunks tile it.
-/

namespace Omp

open Lib

/-! ### Chunks -/

/-- The chunks of a session, by their offsets. -/
abbrev Chunks := Std.ExtTreeMap Nat Bytes

/-- Write chunks over those that are there. -/
def Chunks.writeAll (chunks : Chunks) (ws : List (Nat × Bytes)) : Chunks :=
  ws.foldl (fun chunks w => chunks.insert w.1 w.2) chunks

/-- **The last chunk at each offset**, in the order of the offsets. -/
def lastWritten (ws : List (Nat × Bytes)) : List (Nat × Bytes) := (Chunks.writeAll ∅ ws).toList

theorem getElem?_insert_chunk (chunks : Chunks) (o o' : Nat) (bytes : Bytes) :
    (chunks.insert o bytes)[o']? = if o = o' then some bytes else chunks[o']? := by
  rw [Std.ExtTreeMap.getElem?_insert]
  simp only [Std.compare_eq_iff_eq]

/-- What counts is the last write at an offset. -/
theorem getElem?_writeAll (chunks : Chunks) (ws : List (Nat × Bytes)) (o : Nat) :
    (chunks.writeAll ws)[o]? =
      ((ws.filter fun w => w.1 = o).getLast?.map Prod.snd).or chunks[o]? := by
  induction ws generalizing chunks with
  | nil => rfl
  | cons w ws ih =>
    rw [Chunks.writeAll, List.foldl_cons]
    refine (ih _).trans ?_
    rw [getElem?_insert_chunk]
    by_cases ho : w.1 = o
    · rw [if_pos ho, List.filter_cons_of_pos (by simpa using ho)]
      cases hlast : (ws.filter fun w => w.1 = o).getLast? with
      | none =>
        rw [List.getLast?_eq_none_iff] at hlast
        rw [hlast]
        rfl
      | some v =>
        rw [List.getLast?_cons, hlast]
        rfl
    · rw [if_neg ho, List.filter_cons_of_neg (by simpa using ho)]

/-- Writes that agree at each offset leave the same chunks. -/
theorem writeAll_congr {chunks : Chunks} {ws ws' : List (Nat × Bytes)}
    (h : ∀ o, (ws'.filter fun w => w.1 = o).getLast? = (ws.filter fun w => w.1 = o).getLast?) :
    chunks.writeAll ws' = chunks.writeAll ws := by
  refine Std.ExtTreeMap.ext_getElem? fun o => ?_
  rw [getElem?_writeAll, getElem?_writeAll, h]

/-- A write that is repeated before another at its offset changes nothing. -/
theorem getLast?_filter_repeat {pre mid post : List (Nat × Bytes)} {w : Nat × Bytes}
    (hmid : ∀ v ∈ mid, v.1 ≠ w.1) (o : Nat) :
    ((pre ++ w :: mid ++ w :: post).filter fun w => w.1 = o).getLast? =
      ((pre ++ w :: mid ++ post).filter fun w => w.1 = o).getLast? := by
  by_cases ho : w.1 = o
  · have hnone : mid.filter (fun v => v.1 = o) = [] :=
      List.filter_eq_nil_iff.2 fun v hv => by simpa [← ho] using hmid v hv
    simp only [List.filter_append, List.filter_cons, ho, decide_true, if_true, hnone,
      List.getLast?_append, List.getLast?_cons]
    cases (post.filter fun v => v.1 = o).getLast? <;> simp
  · simp [List.filter_append, ho]

/-! ### Places -/

/-- The directory of the sessions. -/
def uploadsPlace (root : Place) : Place := root ++ ["uploads".toList]

/-- The directory of a session. -/
def sessionPlace (root : Place) (id : Text) : Place := uploadsPlace root ++ [id]

/-- A file in the directory of a session. -/
def filePlace (root : Place) (id name : Text) : Place := sessionPlace root id ++ [name]

section Places

variable {root : Place} {n : Nat} {id name : Text}

theorem plainName_uploads : PlainName "uploads".toList :=
  plainName_of_chars (c := 'u') (by decide +kernel) (by decide) (by decide +kernel) fun _ hc =>
    plain_of_isAlphanum (isAlphanum_of_mem (by decide +kernel) hc)

theorem uploadsDir_new :
    (UploadManager.new root n).uploadsDir = ⟨root, ["uploads".toList]⟩ :=
  Loc.join_plain plainName_uploads

theorem uploadsDir_plain : (UploadManager.new root n).uploadsDir.Plain := by
  rw [uploadsDir_new]
  exact List.forall_mem_singleton.2 plainName_uploads

theorem uploadsDir_place : (UploadManager.new root n).uploadsDir.place = uploadsPlace root := by
  rw [uploadsDir_new]
  rfl

theorem sessionDir_new (hid : PlainName id) :
    (UploadManager.new root n).sessionDir id = (UploadManager.new root n).uploadsDir.entry id :=
  Loc.join_plain hid

theorem sessionDir_plain (hid : PlainName id) :
    ((UploadManager.new root n).sessionDir id).Plain := by
  rw [sessionDir_new hid]
  exact uploadsDir_plain.entry hid

theorem sessionDir_place (hid : PlainName id) :
    ((UploadManager.new root n).sessionDir id).place = sessionPlace root id := by
  rw [sessionDir_new hid, Loc.place_entry, uploadsDir_place]
  rfl

theorem stateFile_place (root : Place) (n : Nat) (hid : PlainName id) :
    (((UploadManager.new root n).sessionDir id).entry stateName).place =
      filePlace root id stateName := by
  rw [Loc.place_entry, sessionDir_place hid]
  rfl

theorem dropLast_filePlace : (filePlace root id name).dropLast = sessionPlace root id :=
  List.dropLast_concat

theorem filePlace_injective : Function.Injective (filePlace root id) := fun _ _ h =>
  List.singleton_injective (List.append_cancel_left h)

theorem filePlace_ne_nil : filePlace root id name ≠ [] := List.concat_ne_nil _ _

theorem sessionPlace_ne_nil : sessionPlace root id ≠ [] := List.concat_ne_nil _ _

/-- Below a directory that is not there is nothing. -/
theorem node_file_of_none {d : Disk} (hnone : d.node (sessionPlace root id) = none) (name : Text) :
    d.node (filePlace root id name) = none := by
  by_contra hthere
  have hdir := Disk.node_parent hthere
  rw [hnone] at hdir
  cases hdir

/-- The directories on the way to a session are no files of it. -/
theorem node_file_congr {d d' : Disk} {l : Loc} (hl : l.place <+: sessionPlace root id)
    (hadds : Disk.AddsDirs l.start l.names d d') (name : Text) :
    d'.node (filePlace root id name) = d.node (filePlace root id name) := by
  refine (hadds.2 _).resolve_right ?_
  rintro ⟨-, -, ns, hns, hq⟩
  have hlong := congrArg List.length hq
  have hplace := hl.length_le
  have hnames := hns.length_le
  rw [Loc.place, List.length_append] at hplace
  rw [filePlace, List.length_append, List.length_append, List.length_singleton] at hlong
  omega

/-- **A directory that was made for a session is empty.** -/
theorem node_file_of_addsDirs {d d₁ d₂ : Disk} (hid : PlainName id)
    (hfree : d.node (sessionPlace root id) = none)
    (hadds : Disk.AddsDirs (UploadManager.new root n).uploadsDir.start
      (UploadManager.new root n).uploadsDir.names d d₁)
    (hadds' : Disk.AddsDirs ((UploadManager.new root n).sessionDir id).start
      ((UploadManager.new root n).sessionDir id).names d₁ d₂) (name : Text) :
    d₂.node (filePlace root id name) = none := by
  rw [node_file_congr (by rw [sessionDir_place hid]) hadds', node_file_congr _ hadds]
  · exact node_file_of_none hfree name
  · rw [uploadsDir_place]
    exact List.prefix_append _ _

/-- The directory of a session, where it is there. -/
theorem resolve_sessionDir {d : Disk} (hid : PlainName id)
    (hdir : d.node (uploadsPlace root) = some .dir) :
    d.resolve ((UploadManager.new root n).sessionDir id) = .ok (sessionPlace root id) := by
  rw [sessionDir_new hid, Disk.resolve_entry (uploadsDir_plain.entry hid), uploadsDir_place]
  · rfl
  · rwa [uploadsDir_place]

/-- A file of a session. -/
theorem resolve_file {d : Disk} (hid : PlainName id) (hname : PlainName name)
    (hdir : d.node (sessionPlace root id) = some .dir) :
    d.resolve (((UploadManager.new root n).sessionDir id).join name) =
      .ok (filePlace root id name) := by
  rw [Loc.join_plain hname, Disk.resolve_entry ((sessionDir_plain hid).entry hname),
    sessionDir_place hid]
  · rfl
  · rwa [sessionDir_place hid]

end Places

theorem stripPrefix_chunkName (offset : Nat) : stripPrefix "chunk.".toList (chunkName offset) =
    some (List.replicate (20 - (decimal offset).length) '0' ++ decimal offset) :=
  stripPrefix_append _ _

theorem stripPrefix_stateName : stripPrefix "chunk.".toList stateName = none := by
  decide +kernel

/-- **Offsets of the machine have names of their own.** -/
theorem chunkName_inj {o o' : Nat} (ho : o < 2 ^ 64) (ho' : o' < 2 ^ 64)
    (h : chunkName o = chunkName o') : o = o' := by
  have hdigits := List.append_cancel_left h
  have hparse := congrArg parseUsize hdigits
  rw [parseUsize_padded ho, parseUsize_padded ho'] at hparse
  exact Option.some.inj hparse

theorem chunkName_ne_stateName (offset : Nat) : chunkName offset ≠ stateName := by
  intro h
  have hstrip := stripPrefix_chunkName offset
  rw [h, stripPrefix_stateName] at hstrip
  cases hstrip

/-! ### Sessions -/

variable (C : SessionCodec)

/-- **What the directory of a session holds** : its state, with the declared size, and the chunks
that were written. -/
structure Session (root : Place) (d : Disk) (id : Text) (size : Nat) (chunks : Chunks) :
    Prop where
  dir : d.node (sessionPlace root id) = some .dir
  state : ∃ content st, d.node (filePlace root id stateName) = some (.file content) ∧
    SessionState.parse C content = .ok st ∧ st.declaredSize = size
  chunk : ∀ o bytes, chunks[o]? = some bytes →
    d.node (filePlace root id (chunkName o)) = some (.file bytes)
  /-- The chunks are within the size. -/
  fits : ∀ o bytes, chunks[o]? = some bytes →
    o + bytes.length < 2 ^ 64 ∧ o + bytes.length ≤ size
  /-- There is nothing else. -/
  only : ∀ name, d.node (filePlace root id name) ≠ none →
    name = stateName ∨ ∃ o bytes, chunks[o]? = some bytes ∧ name = chunkName o

variable {C} {root : Place} {n : Nat} {h h' : Host} {id : Text} {size : Nat} {chunks : Chunks}

/-- A session is known by what is in its directory. -/
theorem Session.congr {d d' : Disk} (hs : Session C root d id size chunks)
    (hnode : ∀ q, sessionPlace root id <+: q → d'.node q = d.node q) :
    Session C root d' id size chunks := by
  have hfile (name : Text) : d'.node (filePlace root id name) = d.node (filePlace root id name) :=
    hnode _ (List.prefix_append _ _)
  obtain ⟨hdir, hstate, hchunk, hfits, honly⟩ := hs
  rw [← hnode _ List.prefix_rfl] at hdir
  simp only [← hfile] at hstate hchunk honly
  exact ⟨hdir, hstate, hchunk, hfits, honly⟩

/-- A file is touched. -/
def Host.touch (h : Host) (p : Place) : Host := { h with disk := h.disk.touch p }

theorem Session.uploads {d : Disk} (hs : Session C root d id size chunks) :
    d.node (uploadsPlace root) = some .dir :=
  Disk.node_of_prefix hs.dir (List.prefix_append _ _)

/-- The state of a session is read. -/
theorem Session.run_loadState (hs : Session C root h.disk id size chunks) (hid : PlainName id) :
    ∃ st, st.declaredSize = size ∧ ((UploadManager.new root n).loadState C id).run h =
      (.ok st, h.touch (filePlace root id stateName)) := by
  obtain ⟨content, st, hfile, hparse, hsize⟩ := hs.state
  have hread := Disk.read_of_resolve (resolve_file (n := n) hid plainName_stateName hs.dir) hfile
  exact ⟨st, hsize, Op.bind_eq_ok.2 ⟨content, _, HostOp.onDisk_eq_ok.2 ⟨_, hread, rfl⟩,
    HostOp.reads_eq_ok.2 ⟨hparse, rfl⟩⟩⟩

theorem Session.run_requireDir (hs : Session C root h.disk id size chunks) (hid : PlainName id) :
    ((UploadManager.new root n).requireDir id).run h = (.ok (), h) := by
  refine Op.reads_eq_ok.2 ⟨if_pos ?_, rfl⟩
  exact Disk.isDir_of_resolve (resolve_sessionDir hid hs.uploads) hs.dir

/-- A file is written in the directory of a session. -/
theorem Session.insert {d d' : Disk} (hs : Session C root d id size chunks) {o : Nat}
    {bytes : Bytes} (ho : o < 2 ^ 64)
    (hfit : o + bytes.length < 2 ^ 64 ∧ o + bytes.length ≤ size)
    (hnode : ∀ q, d'.node q = if filePlace root id (chunkName o) = q then some (.file bytes)
      else d.node q) : Session C root d' id size (chunks.insert o bytes) := by
  have hne : filePlace root id (chunkName o) ≠ sessionPlace root id := by
    intro heq
    exact absurd (congrArg List.length heq) (by simp [filePlace])
  obtain ⟨content, st, hfile, hst⟩ := hs.state
  refine ⟨?_, ⟨content, st, ?_, hst⟩, fun o' bytes' h => ?_, fun o' bytes' h => ?_,
    fun name h => ?_⟩
  · rw [hnode, if_neg hne]
    exact hs.dir
  · rw [hnode, if_neg fun heq => chunkName_ne_stateName o (filePlace_injective heq)]
    exact hfile
  · rw [getElem?_insert_chunk] at h
    split_ifs at h with heq
    · cases h
      rw [hnode, heq, if_pos rfl]
    · rw [hnode, if_neg fun hplace => heq ?_]
      · exact hs.chunk o' bytes' h
      · have ho' := (hs.fits o' bytes' h).1
        exact chunkName_inj ho (by omega) (filePlace_injective hplace)
  · rw [getElem?_insert_chunk] at h
    split_ifs at h with heq
    · cases h
      exact heq ▸ hfit
    · exact hs.fits o' bytes' h
  · rw [hnode] at h
    split_ifs at h with heq
    · exact .inr ⟨o, bytes, by rw [getElem?_insert_chunk, if_pos rfl],
        (filePlace_injective heq).symm⟩
    · refine (hs.only name h).imp_right fun ⟨o', bytes', ho', hname⟩ => ?_
      refine ⟨o', bytes', ?_, hname⟩
      rw [getElem?_insert_chunk, if_neg fun hoo => heq ?_]
      · exact ho'
      · rw [hoo, hname]

/-- **A chunk within the declared size is stored.** -/
theorem Session.run_writeChunk (hs : Session C root h.disk id size chunks) (hid : PlainName id)
    {o : Nat} (bytes : Bytes) (hword : o + bytes.length < 2 ^ 64) (hfit : o + bytes.length ≤ size) :
    ∃ d, ((UploadManager.new root n).writeChunk C id o bytes).run h =
        (.ok (), { h with disk := d }) ∧
      d.touched = filePlace root id (chunkName o) :: filePlace root id stateName ::
        h.disk.touched ∧
      Session C root d id size (chunks.insert o bytes) ∧
      ∀ q, d.node q = if filePlace root id (chunkName o) = q then some (.file bytes)
        else h.disk.node q := by
  obtain ⟨st, hsize, hload⟩ := hs.run_loadState (n := n) hid
  have hname : PlainName (chunkName o) := plainName_chunkName (by omega)
  have hs' : Session C root (h.touch (filePlace root id stateName)).disk id size chunks :=
    hs.congr fun _ _ => rfl
  have hnotdir : (h.touch (filePlace root id stateName)).disk.node
      (filePlace root id (chunkName o)) ≠ some .dir := by
    intro hdir
    rcases hs'.only _ (by rw [hdir]; exact Option.some_ne_none _) with heq | ⟨o', bytes', ho', heq⟩
    · exact chunkName_ne_stateName o heq
    · have hchunk := hs'.chunk o' bytes' ho'
      rw [← heq, hdir] at hchunk
      cases hchunk
  obtain ⟨d, hd⟩ := Disk.exists_write_of_resolve (resolve_file (n := n) hid hname hs'.dir)
    (by rw [dropLast_filePlace]; exact hs'.dir) hnotdir bytes
  have hplain : (((UploadManager.new root n).sessionDir id).join (chunkName o)).Plain := by
    rw [Loc.join_plain hname]
    exact (sessionDir_plain hid).entry hname
  have hplace : (((UploadManager.new root n).sessionDir id).join (chunkName o)).place =
      filePlace root id (chunkName o) := by
    rw [Loc.join_plain hname, Loc.place_entry, sessionDir_place hid]
    rfl
  rcases Disk.write_plain hplain (hplace ▸ filePlace_ne_nil) hd with
    ⟨e, he, -⟩ | ⟨-, -, htouched, hnode⟩
  · cases he
  rw [hplace] at htouched hnode
  refine ⟨d, ?_, htouched, hs.insert (by omega) ⟨hword, hfit⟩ hnode, hnode⟩
  refine Op.bind_eq_ok.2 ⟨(), h, hs.run_requireDir hid, Op.bind_eq_ok.2 ⟨st, _, hload, ?_⟩⟩
  rw [if_neg (by omega)]
  exact HostOp.onDisk_eq_ok.2 ⟨d, hd, rfl⟩

/-- **A chunk that reaches past the declared size is refused.** -/
theorem Session.run_writeChunk_over (hs : Session C root h.disk id size chunks)
    (hid : PlainName id) {o : Nat} {bytes : Bytes}
    (hover : 2 ^ 64 ≤ o + bytes.length ∨ size < o + bytes.length) :
    ((UploadManager.new root n).writeChunk C id o bytes).run h =
      (.error (.err (.omp (UploadManager.overflow id o bytes.length size))),
        h.touch (filePlace root id stateName)) := by
  obtain ⟨st, hsize, hload⟩ := hs.run_loadState (n := n) hid
  rw [UploadManager.writeChunk, Op.run_bind_of_ok (hs.run_requireDir hid),
    Op.run_bind_of_ok hload, hsize, if_pos hover]
  rfl

/-! ### Assembling -/

section Assembling

variable {W : World} {A : Allocator} {order : List Text → List Text}

/-- The offset in the name of a chunk. -/
def chunkOffset (name : Text) : Option Nat :=
  (stripPrefix "chunk.".toList name).bind parseUsize

theorem chunkOffset_chunkName {o : Nat} (ho : o < 2 ^ 64) : chunkOffset (chunkName o) = some o := by
  rw [chunkOffset, stripPrefix_chunkName]
  exact parseUsize_padded ho _

theorem chunkOffset_stateName : chunkOffset stateName = none := by
  rw [chunkOffset, stripPrefix_stateName]
  rfl

/-- Where the names are those of a session, the chunks among them are found. -/
theorem chunkEntries_eq_ok (id : Text) (dir : Loc) {names : List Text}
    (hnames : ∀ name ∈ names, name = stateName ∨ ∃ o < 2 ^ 64, name = chunkName o) :
    UploadManager.chunkEntries W id dir names =
      .ok (names.filterMap fun name => (chunkOffset name).map fun o => (o, dir.entry name)) := by
  induction names with
  | nil => rfl
  | cons name names ih =>
    obtain ⟨hname, hrest⟩ := List.forall_mem_cons.1 hnames
    rcases hname with rfl | ⟨o, ho, rfl⟩
    · rw [UploadManager.chunkEntries, stripPrefix_stateName, ih hrest,
        List.filterMap_cons_none (by rw [chunkOffset_stateName]; rfl)]
    · rw [UploadManager.chunkEntries, stripPrefix_chunkName]
      dsimp only
      rw [parseUsize_padded ho, ih hrest]
      rw [List.filterMap_cons_some (by rw [chunkOffset_chunkName ho]; rfl)]
      rfl

/-- The chunks in the order of their offsets, with their files. -/
def chunkFiles (dir : Loc) (chunks : Chunks) : List (Nat × Loc) :=
  chunks.toList.map fun p => (p.1, dir.entry (chunkName p.1))

theorem Session.of_children {d : Disk} (hs : Session C root d id size chunks) {name : Text}
    (hname : name ∈ d.children (sessionPlace root id)) :
    name = stateName ∨ ∃ o < 2 ^ 64, name = chunkName o := by
  rcases hs.only name (Disk.mem_children.1 hname) with hstate | ⟨o, bytes, ho, heq⟩
  · exact .inl hstate
  · have := (hs.fits o bytes ho).1
    exact .inr ⟨o, by omega, heq⟩

/-- **What is listed and sorted are the chunks.** -/
theorem Session.mergeSort_entries {d : Disk} (hs : Session C root d id size chunks) (dir : Loc)
    {names : List Text} (hperm : names.Perm (d.children (sessionPlace root id))) :
    (names.filterMap fun name => (chunkOffset name).map fun o => (o, dir.entry name)).mergeSort
      (fun a b => a.1 ≤ b.1) = chunkFiles dir chunks := by
  let entry (name : Text) : Option (Nat × Loc) :=
    (chunkOffset name).map fun o => (o, dir.entry name)
  have hmem (name : Text) (p : Nat × Loc) : p ∈ entry name ↔
      chunkOffset name = some p.1 ∧ p.2 = dir.entry name := by
    rw [Option.mem_def, Option.map_eq_some_iff]
    exact ⟨fun ⟨o, ho, hp⟩ => hp ▸ ⟨ho, rfl⟩, fun ⟨ho, hp⟩ => ⟨p.1, ho, hp ▸ rfl⟩⟩
  have hentry : Function.Injective dir.entry := fun a b heq =>
    List.singleton_injective (List.append_cancel_left (congrArg Loc.names heq))
  have hchunks : (names.filterMap entry).Perm (chunkFiles dir chunks) := by
    refine (hperm.filterMap entry).trans ((List.perm_ext_iff_of_nodup ?_ ?_).2 fun p => ?_)
    · refine List.Nodup.filterMap (fun a b p ha hb => ?_) Disk.nodup_children
      exact hentry (((hmem a p).1 ha).2.symm.trans ((hmem b p).1 hb).2)
    · have hsorted := Std.ExtTreeMap.distinct_keys_toList (t := chunks)
      exact (List.pairwise_map.2 (hsorted.imp fun hne heq =>
        hne (Std.compare_eq_iff_eq.2 (Prod.mk.inj heq).1)))
    · rw [List.mem_filterMap, chunkFiles, List.mem_map]
      constructor
      · rintro ⟨name, hname, hp⟩
        obtain ⟨ho, hloc⟩ := (hmem name p).1 hp
        rcases hs.only name (Disk.mem_children.1 hname) with rfl | ⟨o, bytes, hchunk, rfl⟩
        · rw [chunkOffset_stateName] at ho
          cases ho
        · have hword := (hs.fits o bytes hchunk).1
          rw [chunkOffset_chunkName (by omega)] at ho
          obtain rfl := Option.some.inj ho
          exact ⟨(p.1, bytes), Std.ExtTreeMap.mem_toList_iff_getElem?_eq_some.2 hchunk,
            Prod.ext rfl hloc.symm⟩
      · rintro ⟨q, hq, rfl⟩
        have hchunk := Std.ExtTreeMap.mem_toList_iff_getElem?_eq_some.1 hq
        have hword := (hs.fits _ _ hchunk).1
        refine ⟨chunkName q.1, Disk.mem_children.2 ?_, (hmem _ _).2
          ⟨chunkOffset_chunkName (by omega), rfl⟩⟩
        exact Option.ne_none_iff_exists'.2 ⟨_, hs.chunk _ _ hchunk⟩
  have hless : (chunkFiles dir chunks).Pairwise fun a b => (decide (a.1 ≤ b.1)) = true := by
    refine List.pairwise_map.2 ((Std.ExtTreeMap.ordered_keys_toList (t := chunks)).imp ?_)
    exact fun h => decide_eq_true (le_of_lt (Nat.compare_eq_lt.1 h))
  refine List.Perm.eq_of_pairwise (fun a b ha hb hab hba => ?_)
    (List.pairwise_mergeSort (fun a b c => ?_) (fun a b => ?_) _) hless
    ((List.mergeSort_perm _ _).trans hchunks)
  · -- a chunk is known by its offset
    have ha' := hchunks.mem_iff.1 ((List.mergeSort_perm _ _).mem_iff.1 ha)
    obtain ⟨p, -, rfl⟩ := List.mem_map.1 ha'
    obtain ⟨q, -, rfl⟩ := List.mem_map.1 hb
    have heq : p.1 = q.1 := le_antisymm (of_decide_eq_true hab) (of_decide_eq_true hba)
    rw [heq]
  · intro hab hbc
    exact decide_eq_true ((of_decide_eq_true hab).trans (of_decide_eq_true hbc))
  · simpa using le_total a.1 b.1

/-- The files that are read are touched. -/
def Host.touchChunks (h : Host) (root : Place) (id : Text) (pieces : List (Nat × Bytes)) : Host :=
  pieces.foldl (fun h p => h.touch (filePlace root id (chunkName p.1))) h

theorem node_touchChunks (h : Host) (pieces : List (Nat × Bytes)) (q : Place) :
    (h.touchChunks root id pieces).disk.node q = h.disk.node q := by
  induction pieces generalizing h with
  | nil => rfl
  | cons p pieces ih => exact ih _

theorem repo_touchChunks (h : Host) (pieces : List (Nat × Bytes)) :
    (h.touchChunks root id pieces).repo = h.repo := by
  induction pieces generalizing h with
  | nil => rfl
  | cons p pieces ih => exact ih _

/-- **The loop of `assemble`** ends where the chunks do, if each begins where the one before it
ends. -/
theorem run_splice (hid : PlainName id) {pieces : List (Nat × Bytes)} {stop : Nat} {out : Bytes}
    (capacity : Nat) (buf : Bytes) (hdir : h.disk.node (sessionPlace root id) = some .dir)
    (hpieces : ∀ p ∈ pieces, h.disk.node (filePlace root id (chunkName p.1)) = some (.file p.2) ∧
      p.1 < 2 ^ 64 ∧ pieceEnd p ≤ capacity) :
    (UploadManager.splice A id (pieces.map fun p =>
        (p.1, ((UploadManager.new root n).sessionDir id).entry (chunkName p.1)))
        buf.length capacity buf).run h = (.ok (stop, out), h') ↔
      Tiles pieces buf.length stop ∧ out = buf ++ pieces.flatMap Prod.snd ∧
        h' = h.touchChunks root id pieces := by
  induction pieces generalizing h buf with
  | nil =>
    rw [List.map_nil, UploadManager.splice, Op.pure_eq_ok, tiles_nil, Prod.mk.injEq,
      List.flatMap_nil, List.append_nil, Host.touchChunks, List.foldl_nil, and_assoc,
      eq_comm (a := buf), eq_comm (a := h)]
  | cons p pieces ih =>
    obtain ⟨⟨hfile, hword, hend⟩, hrest⟩ := List.forall_mem_cons.1 hpieces
    rw [List.map_cons, UploadManager.splice, tiles_cons]
    by_cases ho : p.1 = buf.length
    · rw [if_neg (not_not.2 ho)]
      have hname := plainName_chunkName hword
      have hresolve := resolve_file (n := n) hid hname hdir
      rw [Loc.join_plain hname] at hresolve
      have hread := Disk.read_of_resolve hresolve hfile
      have hlen : (buf ++ p.2).length = pieceEnd p := by
        rw [List.length_append, pieceEnd, ho]
      have hreserve : A.reserve capacity (buf.length + p.2.length) = pure capacity := by
        rw [Allocator.reserve, if_pos (by rw [← List.length_append, hlen]; exact hend)]
      rw [Op.run_bind_of_ok (HostOp.onDisk_eq_ok.2 ⟨_, hread, rfl⟩), hreserve, Op.run_bind,
        Op.run_pure]
      have hih := ih (h := h.touch (filePlace root id (chunkName p.1))) (buf ++ p.2) hdir hrest
      rw [hlen] at hih
      rw [← List.length_append, hlen]
      refine hih.trans ?_
      rw [List.flatMap_cons, List.append_assoc]
      constructor
      · rintro ⟨htiles, hout, hh⟩
        exact ⟨⟨ho, htiles⟩, hout, hh⟩
      · rintro ⟨⟨-, htiles⟩, hout, hh⟩
        exact ⟨htiles, hout, hh⟩
    · rw [if_pos ho]
      constructor
      · intro hrun
        cases hrun
      · rintro ⟨⟨heq, -⟩, -⟩
        exact absurd heq ho

/-- The state is read, and then the chunks. -/
def Host.touchSession (h : Host) (root : Place) (id : Text) (chunks : Chunks) : Host :=
  (h.touch (filePlace root id stateName)).touchChunks root id chunks.toList

theorem Allocator.run_allocate {k : Nat} :
    (A.allocate k).run h = (.ok (), h') ↔ (k = 0 ∨ A.grants k = true) ∧ h = h' := by
  rw [Allocator.allocate]
  by_cases hzero : k = 0
  · rw [if_pos hzero, Op.pure_eq_ok]
    exact ⟨fun ⟨_, hh⟩ => ⟨.inl hzero, hh⟩, fun ⟨_, hh⟩ => ⟨rfl, hh⟩⟩
  · by_cases hgrant : A.grants k = true
    · have := A.grants_lt k hgrant
      rw [if_neg hzero, if_neg (by omega), if_pos hgrant, Op.pure_eq_ok]
      exact ⟨fun ⟨_, hh⟩ => ⟨.inr hgrant, hh⟩, fun ⟨_, hh⟩ => ⟨rfl, hh⟩⟩
    · refine ⟨fun hrun => ?_, fun ⟨hor, _⟩ => (hor.elim hzero hgrant).elim⟩
      split_ifs at hrun
      · cases hrun
      · cases hrun

/-- **A session is assembled** exactly when its declared size can be allocated and its chunks tile
it, and to what they are together. -/
theorem Session.run_assemble (hs : Session C root h.disk id size chunks) (hid : PlainName id)
    (horder : ∀ names, (order names).Perm names) {bytes : Bytes} :
    ((UploadManager.new root n).assemble W C A order id).run h = (.ok bytes, h') ↔
      (size = 0 ∨ A.grants size = true) ∧ Tiles chunks.toList 0 size ∧
        bytes = chunks.toList.flatMap Prod.snd ∧ h' = h.touchSession root id chunks := by
  obtain ⟨st, hsize, hload⟩ := hs.run_loadState (n := n) hid
  have hs' : Session C root (h.touch (filePlace root id stateName)).disk id size chunks :=
    hs.congr fun _ _ => rfl
  have hlist := Disk.list_of_resolve (resolve_sessionDir (n := n) hid hs'.uploads) hs'.dir
  have hnames : ∀ name ∈ order ((h.touch (filePlace root id stateName)).disk.children
      (sessionPlace root id)), name = stateName ∨ ∃ o < 2 ^ 64, name = chunkName o :=
    fun name hname => hs'.of_children ((horder _).mem_iff.1 hname)
  have hpieces : ∀ p ∈ chunks.toList, (h.touch (filePlace root id stateName)).disk.node
      (filePlace root id (chunkName p.1)) = some (.file p.2) ∧ p.1 < 2 ^ 64 ∧
        pieceEnd p ≤ size := by
    intro p hp
    have hchunk := Std.ExtTreeMap.mem_toList_iff_getElem?_eq_some.1 hp
    have hfits := hs'.fits _ _ hchunk
    exact ⟨hs'.chunk _ _ hchunk, by omega, hfits.2⟩
  have hlisted (wrap : IoError → UploadError) :
      (Op.reads fun h : Host => (h.disk.list ((UploadManager.new root n).sessionDir id)).mapError
        wrap).run (h.touch (filePlace root id stateName)) = (.ok _, _) :=
    Op.reads_eq_ok.2 ⟨mapError_eq_ok.2 hlist, rfl⟩
  rw [UploadManager.assemble, Op.run_bind_of_ok (hs.run_requireDir hid), Op.run_bind_of_ok hload]
  dsimp only
  rw [Op.run_bind_of_ok (hlisted _),
    Op.run_bind_of_ok (HostOp.reads_eq_ok.2 ⟨chunkEntries_eq_ok _ _ hnames, rfl⟩), hsize,
    hs'.mergeSort_entries _ (horder _), Op.bind_eq_ok]
  constructor
  · rintro ⟨_, h₂, halloc, hrest⟩
    obtain ⟨hgrants, rfl⟩ := Allocator.run_allocate.1 halloc
    obtain ⟨⟨stop, out⟩, h₁, hrun, hend⟩ := Op.bind_eq_ok.1 hrest
    obtain ⟨htiles, rfl, rfl⟩ := (run_splice hid size [] hs'.dir hpieces).1 hrun
    dsimp only at hend
    split_ifs at hend with hstop
    · cases hend
    · obtain ⟨rfl, rfl⟩ := Op.pure_eq_ok.1 hend
      exact ⟨hgrants, not_not.1 hstop ▸ htiles, rfl, rfl⟩
  · rintro ⟨hgrants, htiles, rfl, rfl⟩
    refine ⟨(), _, Allocator.run_allocate.2 ⟨hgrants, rfl⟩, Op.bind_eq_ok.2
      ⟨(size, _), _, (run_splice hid size [] hs'.dir hpieces).2 ⟨htiles, rfl, rfl⟩, ?_⟩⟩
    dsimp only
    rw [if_neg (not_not.2 rfl)]
    rfl

end Assembling

/-! ### What does not change -/

/-- The same files, and the same repository. -/
structure Host.SameFiles (h h' : Host) : Prop where
  repo : h'.repo = h.repo
  node : ∀ q, h'.disk.node q = h.disk.node q

instance : Std.Refl Host.SameFiles := ⟨fun _ => ⟨rfl, fun _ => rfl⟩⟩

instance : IsTrans Host Host.SameFiles :=
  ⟨fun _ _ _ h h' => ⟨h'.repo.trans h.repo, fun q => (h'.node q).trans (h.node q)⟩⟩

theorem keeps_read (wrap : IoError → UploadError) (l : Loc) :
    (HostOp.onDisk wrap fun d => d.read l).Keeps Host.SameFiles :=
  fun _ => ⟨rfl, fun _ => Disk.node_read _ _ _⟩

theorem keeps_loadState (mgr : UploadManager) (id : Text) :
    (mgr.loadState C id).Keeps Host.SameFiles :=
  (keeps_read _ _).bind fun _ => .reads _

theorem keeps_requireDir (mgr : UploadManager) (id : Text) :
    (mgr.requireDir id).Keeps Host.SameFiles := .reads _

theorem keeps_allocate (A : Allocator) (k : Nat) : (A.allocate k).Keeps Host.SameFiles := by
  rw [Allocator.allocate]
  split_ifs
  · exact .pure _
  · exact .panic
  · exact .pure _
  · exact fun _ => ⟨rfl, fun _ => rfl⟩

theorem keeps_reserve (A : Allocator) (capacity k : Nat) :
    (A.reserve capacity k).Keeps Host.SameFiles := by
  rw [Allocator.reserve]
  split_ifs
  · exact .pure _
  · exact (keeps_allocate A _).bind fun _ => .pure _

theorem keeps_splice (A : Allocator) (id : Text) (files : List (Nat × Loc))
    (cursor capacity : Nat) (buf : Bytes) :
    (UploadManager.splice A id files cursor capacity buf).Keeps Host.SameFiles := by
  induction files generalizing cursor capacity buf with
  | nil => exact .pure _
  | cons file files ih =>
    rw [UploadManager.splice]
    split_ifs
    · exact .throw _
    · exact (keeps_read _ _).bind fun _ => (keeps_reserve A _ _).bind fun _ => ih _ _ _

/-- **`assemble` changes nothing**, whatever comes of it. -/
theorem keeps_assemble (W : World) (mgr : UploadManager) (A : Allocator)
    (order : List Text → List Text) (id : Text) :
    (mgr.assemble W C A order id).Keeps Host.SameFiles := by
  refine (keeps_requireDir _ _).bind fun _ => (keeps_loadState _ _).bind fun _ =>
    (Op.Keeps.reads _).bind fun _ => (Op.Keeps.reads _).bind fun _ =>
      (keeps_allocate _ _).bind fun _ => (keeps_splice _ _ _ _ _ _).bind fun res => ?_
  obtain ⟨cursor, buf⟩ := res
  dsimp only
  split_ifs
  · exact .throw _
  · exact .pure _

/-! ### Opening and writing -/

/-- A session whose state is written into an empty directory holds no chunks. -/
theorem session_of_write {d d' : Disk} {body : Bytes} {st : SessionState}
    (hparse : SessionState.parse C body = .ok st) (hsize : st.declaredSize = size)
    (hnone : ∀ name, d.node (filePlace root id name) = none)
    (hdir : d.node (sessionPlace root id) = some .dir)
    (hnode : ∀ q, d'.node q = if filePlace root id stateName = q then some (.file body)
      else d.node q) : Session C root d' id size ∅ := by
  refine ⟨?_, ⟨body, st, ?_, hparse, hsize⟩, fun o bytes ho => ?_, fun o bytes ho => ?_,
    fun name hname => ?_⟩
  · rw [hnode, if_neg fun heq => ?_]
    · exact hdir
    · exact absurd (congrArg List.length heq) (by simp [filePlace])
  · rw [hnode, if_pos rfl]
  · rw [Std.ExtTreeMap.getElem?_empty] at ho
    cases ho
  · rw [Std.ExtTreeMap.getElem?_empty] at ho
    cases ho
  · rw [hnode] at hname
    split_ifs at hname with heq
    · exact .inl (filePlace_injective heq).symm
    · exact absurd (hnone name) hname

/-- A session that is opened where there is none holds no chunks. -/
theorem session_of_open (hC : C.RoundTrips) {now : Text} {random : Vector UInt8 16}
    {handle : UploadHandle} (hfree : h.disk.node (sessionPlace root (generateId random)) = none)
    (hopen : ((UploadManager.new root n).open_ C now random size).run h = (.ok handle, h')) :
    handle.uploadId = generateId random ∧ h'.repo = h.repo ∧
      Session C root h'.disk (generateId random) size ∅ := by
  have hid := plainName_generateId random
  obtain ⟨_, _, hrun₁, hopen⟩ := Op.bind_eq_ok.1 hopen
  obtain ⟨d₁, hmk, rfl⟩ := HostOp.onDisk_eq_ok.1 hrun₁
  obtain ⟨_, _, hrun₂, hopen⟩ := Op.bind_eq_ok.1 hopen
  obtain ⟨d₂, hmk', rfl⟩ := HostOp.onDisk_eq_ok.1 hrun₂
  obtain ⟨body, _, hrun₃, hopen⟩ := Op.bind_eq_ok.1 hopen
  obtain ⟨hbody, rfl⟩ := HostOp.reads_eq_ok.1 hrun₃
  obtain ⟨_, _, hrun₄, hopen⟩ := Op.bind_eq_ok.1 hopen
  obtain ⟨d₃, hwrite, rfl⟩ := HostOp.onDisk_eq_ok.1 hrun₄
  obtain ⟨rfl, rfl⟩ := Op.pure_eq_ok.1 hopen
  have hnone := node_file_of_addsDirs hid hfree (Disk.createDirAll_plain uploadsDir_plain hmk)
    (Disk.createDirAll_plain (sessionDir_plain hid) hmk')
  have hplace := stateFile_place root n hid
  rw [Loc.join_plain plainName_stateName] at hwrite
  rcases Disk.write_plain ((sessionDir_plain hid).entry plainName_stateName)
    (hplace ▸ filePlace_ne_nil) hwrite with ⟨e, he, -⟩ | ⟨-, hdir, -, hnode⟩
  · cases he
  rw [hplace] at hdir hnode
  rw [dropLast_filePlace] at hdir
  exact ⟨rfl, rfl, session_of_write (hC.parse hbody) rfl hnone hdir hnode⟩

/-- Write chunks, one after the other. -/
def UploadManager.writeChunks (C : SessionCodec) (mgr : UploadManager) (id : Text)
    (ws : List (Nat × Bytes)) : HostOp Unit :=
  ws.forM fun w => mgr.writeChunk C id w.1 w.2

/-- Chunks within the declared size are stored, each over the one that was there. -/
theorem Session.run_writeChunks (hs : Session C root h.disk id size chunks) (hid : PlainName id)
    {ws : List (Nat × Bytes)}
    (hfits : ∀ w ∈ ws, pieceEnd w < 2 ^ 64 ∧ pieceEnd w ≤ size) :
    ∃ d, ((UploadManager.new root n).writeChunks C id ws).run h = (.ok (), { h with disk := d }) ∧
      Session C root d id size (chunks.writeAll ws) ∧
      ∀ q, (∀ w ∈ ws, filePlace root id (chunkName w.1) ≠ q) → d.node q = h.disk.node q := by
  induction ws generalizing h chunks with
  | nil => exact ⟨h.disk, rfl, hs, fun _ _ => rfl⟩
  | cons w ws ih =>
    obtain ⟨⟨hword, hfit⟩, hrest⟩ := List.forall_mem_cons.1 hfits
    obtain ⟨d₁, hwrite, -, hs₁, hnode₁⟩ := hs.run_writeChunk (n := n) hid _ hword hfit
    obtain ⟨d₂, hwrites, hs₂, hnode₂⟩ := ih (h := { h with disk := d₁ }) hs₁ hrest
    refine ⟨d₂, (Op.run_bind_of_ok hwrite _).trans hwrites, hs₂, fun q hq => ?_⟩
    obtain ⟨hne, hq⟩ := List.forall_mem_cons.1 hq
    exact (hnode₂ q hq).trans ((hnode₁ q).trans (if_neg hne))

/-- Only chunks within the declared size are stored. -/
theorem Session.fits_of_writeChunks (hs : Session C root h.disk id size chunks)
    (hid : PlainName id) {ws : List (Nat × Bytes)}
    (hrun : ((UploadManager.new root n).writeChunks C id ws).run h = (.ok (), h')) :
    ∀ w ∈ ws, pieceEnd w < 2 ^ 64 ∧ pieceEnd w ≤ size := by
  induction ws generalizing h chunks with
  | nil => exact fun w hw => absurd hw List.not_mem_nil
  | cons w ws ih =>
    by_cases hover : 2 ^ 64 ≤ w.1 + w.2.length ∨ size < w.1 + w.2.length
    · obtain ⟨_, _, hwrite, -⟩ := Op.bind_eq_ok.1 hrun
      rw [hs.run_writeChunk_over hid hover] at hwrite
      cases hwrite
    · have hfit : pieceEnd w < 2 ^ 64 ∧ pieceEnd w ≤ size := by
        rw [pieceEnd]
        omega
      obtain ⟨d, hwrite, -, hs', -⟩ := hs.run_writeChunk (n := n) hid _ hfit.1 hfit.2
      obtain ⟨_, _, hwrite', hrest⟩ := Op.bind_eq_ok.1 hrun
      cases hwrite.symm.trans hwrite'
      exact List.forall_mem_cons.2 ⟨hfit, ih (h := { h with disk := d }) hs' hrest⟩

/-- Writes that agree at each offset leave the same files. -/
theorem Session.sameFiles_of_writeChunks (hs : Session C root h.disk id size chunks)
    (hid : PlainName id) {ws ws' : List (Nat × Bytes)}
    (hrun : ((UploadManager.new root n).writeChunks C id ws).run h = (.ok (), h'))
    (hmem : ∀ w ∈ ws', w ∈ ws)
    (hsame : ∀ o, (ws'.filter fun w => w.1 = o).getLast? = (ws.filter fun w => w.1 = o).getLast?) :
    ∃ h'', ((UploadManager.new root n).writeChunks C id ws').run h = (.ok (), h'') ∧
      h'.SameFiles h'' := by
  have hfits := hs.fits_of_writeChunks hid hrun
  obtain ⟨d, hd, hs₁, hnode⟩ := hs.run_writeChunks (n := n) hid hfits
  obtain ⟨d', hd', hs₂, hnode'⟩ :=
    hs.run_writeChunks (n := n) hid fun w hw => hfits w (hmem w hw)
  cases hd.symm.trans hrun
  rw [writeAll_congr hsame] at hs₂
  refine ⟨_, hd', rfl, fun q => ?_⟩
  by_cases hq : ∃ w ∈ ws, filePlace root id (chunkName w.1) = q
  · -- a chunk stands there, the same in both
    obtain ⟨w, hw, rfl⟩ := hq
    have hsome : (ws.filter fun v => v.1 = w.1).getLast? ≠ none := by
      rw [ne_eq, List.getLast?_eq_none_iff]
      exact List.ne_nil_of_mem (List.mem_filter.2 ⟨hw, by simp⟩)
    obtain ⟨v, hv⟩ := Option.ne_none_iff_exists'.1 hsome
    have hchunk : (chunks.writeAll ws)[w.1]? = some v.2 := by
      rw [getElem?_writeAll, hv]
      rfl
    exact (hs₂.chunk _ _ hchunk).trans (hs₁.chunk _ _ hchunk).symm
  · have hout : ∀ w ∈ ws, filePlace root id (chunkName w.1) ≠ q := fun w hw heq =>
      hq ⟨w, hw, heq⟩
    exact (hnode' q fun w hw => hout w (hmem w hw)).trans (hnode q hout).symm

/-! ### Removing -/

/-- **A session is removed** with all it holds. -/
theorem Session.run_remove (hs : Session C root h.disk id size chunks) (hid : PlainName id) :
    ((UploadManager.new root n).remove id).run h =
      (.ok (), { h with disk := h.disk.erase (sessionPlace root id) }) := by
  have hresolve := resolve_sessionDir (n := n) hid hs.uploads
  have hpresent := Disk.present_of_resolve hresolve hs.dir
  rw [sessionDir_new hid] at hresolve hpresent
  have hremove := Disk.removeDirAll_of_resolve hresolve hs.dir hid
  rw [UploadManager.remove, sessionDir_new hid]
  refine Op.bind_eq_ok.2 ⟨true, h, Op.reads_eq_ok.2 ⟨congrArg Except.ok hpresent, rfl⟩, ?_⟩
  rw [if_pos rfl]
  exact HostOp.onDisk_eq_ok.2 ⟨_, hremove, rfl⟩

section Absent

/-- **The directory of a session without a state is as good as none** : what needs the state is
told that the session is not known. -/
theorem run_loadState_absent (hid : PlainName id)
    (hfile : ∀ q, q <+: sessionPlace root id → ∀ content, h.disk.node q ≠ some (.file content))
    (hstate : h.disk.node (filePlace root id stateName) = none) :
    ((UploadManager.new root n).loadState C id).run h =
      (.error (.err (.omp (UploadManager.unknown id))), h) := by
  have hplace : (((UploadManager.new root n).sessionDir id).join stateName).place =
      filePlace root id stateName := by
    rw [Loc.join_plain plainName_stateName, Loc.place_entry, sessionDir_place hid]
    rfl
  have hplain : (((UploadManager.new root n).sessionDir id).join stateName).Plain := by
    rw [Loc.join_plain plainName_stateName]
    exact (sessionDir_plain hid).entry plainName_stateName
  have hread : h.disk.read (((UploadManager.new root n).sessionDir id).join stateName) =
      (.error .notFound, h.disk) := by
    refine Disk.read_absent hplain (fun q hq content => ?_) (by rwa [hplace])
    rw [hplace] at hq
    rcases List.prefix_concat_iff.1 hq with rfl | hq
    · have hnone : h.disk.node (sessionPlace root id ++ [stateName]) = none := hstate
      rw [hnone]
      exact (Option.some_ne_none _).symm
    · exact hfile q hq content
  rw [UploadManager.loadState]
  refine Op.run_bind_of_error ?_ _
  rw [HostOp.onDisk]
  simp only [hread]
  rfl

/-- The same where the directory is asked for first. -/
theorem run_requireDir_absent {α : Type} (hid : PlainName id)
    (hfile : ∀ q, q <+: sessionPlace root id → ∀ content, h.disk.node q ≠ some (.file content))
    (hstate : h.disk.node (filePlace root id stateName) = none) (k : SessionState → HostOp α) :
    ((UploadManager.new root n).requireDir id >>= fun _ =>
      (UploadManager.new root n).loadState C id >>= k).run h =
        (.error (.err (.omp (UploadManager.unknown id))), h) := by
  by_cases hdir : h.disk.isDir ((UploadManager.new root n).sessionDir id) = true
  · have hrequire : ((UploadManager.new root n).requireDir id).run h = (.ok (), h) :=
      Op.reads_eq_ok.2 ⟨if_pos hdir, rfl⟩
    rw [Op.run_bind_of_ok hrequire]
    exact Op.run_bind_of_error (run_loadState_absent hid hfile hstate) _
  · refine Op.run_bind_of_error ?_ _
    rw [UploadManager.requireDir, Op.run_reads, if_neg hdir]
    rfl

end Absent

/-! ### Exact assembly -/

/-- **A session is assembled exactly when its last chunks tile it**, and to what they are together.
The order of writes at distinct offsets does not matter, nor does a write that is repeated, and one
that reaches past the declared size is refused. -/
theorem assembly_exact {W : World} {A : Allocator} {order : List Text → List Text} {h₀ h₁ : Host}
    {now : Text} {random : Vector UInt8 16} {handle : UploadHandle} {ws : List (Nat × Bytes)}
    (hC : C.RoundTrips) (hfree : h₀.disk.node (sessionPlace root (generateId random)) = none)
    (hopen : ((UploadManager.new root n).open_ C now random size).run h₀ = (.ok handle, h₁))
    (hws : ((UploadManager.new root n).writeChunks C handle.uploadId ws).run h₁ = (.ok (), h))
    (horder : ∀ names, (order names).Perm names) (hgrants : size = 0 ∨ A.grants size = true) :
    (∀ bytes, (∃ h', ((UploadManager.new root n).assemble W C A order handle.uploadId).run h =
        (.ok bytes, h')) ↔
      Tiles (lastWritten ws) 0 size ∧ bytes = (lastWritten ws).flatMap Prod.snd) ∧
    (∀ ws', ws'.Perm ws → (∀ o, ws'.filter (fun w => w.1 = o) = ws.filter fun w => w.1 = o) →
      ∃ h', ((UploadManager.new root n).writeChunks C handle.uploadId ws').run h₁ = (.ok (), h') ∧
        h.SameFiles h') ∧
    (∀ pre w mid post, ws = pre ++ w :: mid ++ post → (∀ v ∈ mid, v.1 ≠ w.1) →
      ∃ h', ((UploadManager.new root n).writeChunks C handle.uploadId
          (pre ++ w :: mid ++ w :: post)).run h₁ = (.ok (), h') ∧ h.SameFiles h') ∧
    ∀ o bytes, size < o + bytes.length → ∃ e h',
      ((UploadManager.new root n).writeChunk C handle.uploadId o bytes).run h =
        (.error (.err e), h') ∧ h.SameFiles h' := by
  obtain ⟨hid, -, hs₁⟩ := session_of_open hC hfree hopen
  rw [hid] at hws ⊢
  have hplain := plainName_generateId random
  have hs : Session C root h.disk (generateId random) size (Chunks.writeAll ∅ ws) := by
    obtain ⟨d, hd, hs, -⟩ :=
      hs₁.run_writeChunks (n := n) hplain (hs₁.fits_of_writeChunks hplain hws)
    cases hd.symm.trans hws
    exact hs
  refine ⟨fun bytes => ?_, fun ws' hperm hsame => ?_, fun pre w mid post hpre hmid => ?_,
    fun o bytes hover => ?_⟩
  · simp only [hs.run_assemble hplain horder]
    exact ⟨fun ⟨_, _, htiles, hbytes, _⟩ => ⟨htiles, hbytes⟩,
      fun ⟨htiles, hbytes⟩ => ⟨_, hgrants, htiles, hbytes, rfl⟩⟩
  · exact hs₁.sameFiles_of_writeChunks hplain hws (fun w hw => hperm.mem_iff.1 hw)
      fun o => congrArg List.getLast? (hsame o)
  · refine hs₁.sameFiles_of_writeChunks hplain hws (fun v hv => ?_) fun o => ?_
    · simp only [List.mem_append, List.mem_cons, hpre] at hv ⊢
      tauto
    · rw [hpre]
      exact getLast?_filter_repeat hmid o
  · exact ⟨_, _, hs.run_writeChunk_over hplain (.inr hover), rfl, fun _ => rfl⟩

/-- A format of the states of sessions, for one of them. -/
def oneState (state : SessionState) (text : Text) : SessionCodec where
  fromStr t := if t = text then .ok state else .error "missing field".toList
  toStringPretty s := if s = state then .ok text else .error "unsupported".toList

theorem roundTrips_oneState (state : SessionState) (text : Text) :
    (oneState state text).RoundTrips := by
  intro s t h
  rw [oneState] at h ⊢
  dsimp only at h ⊢
  split_ifs at h with hs
  cases h
  rw [if_pos rfl, hs]

/-- A session of four bytes. -/
def fourBytes : SessionState where
  id := "AAAAAAAAAAAAAAAA".toList
  declaredSize := 4
  path := none
  createdAt := "2026-01-01T00:00:00Z".toList
  chunkSizeBytes := 64

/-- Its format. -/
def fourBytesCodec : SessionCodec := oneState fourBytes
  ("id = \"AAAAAAAAAAAAAAAA\"\ndeclared_size = 4\n".toList ++
    "created_at = \"2026-01-01T00:00:00Z\"\nchunk_size_bytes = 64\n".toList)

/-- A host whose files are none. -/
def emptyHost : Host := ⟨Repo.init, Disk.empty, false, []⟩

/-- A manager of uploads. -/
def demoManager : UploadManager := .new ["omp".toList] 64

/-- The host after the session is opened. -/
def openedHost : Host :=
  ((demoManager.open_ fourBytesCodec "2026-01-01T00:00:00Z".toList (Vector.replicate 16 0) 4).run
    emptyHost).2

/-- What is handed out. -/
def fourBytesHandle : UploadHandle := ⟨"AAAAAAAAAAAAAAAA".toList, 64⟩

/-- Two chunks, the last one first. -/
def twoChunks : List (Nat × Bytes) := [(2, [3, 4]), (0, [1, 2])]

/-- The host after they are written. -/
def writtenHost : Host :=
  ((demoManager.writeChunks fourBytesCodec fourBytesHandle.uploadId twoChunks).run openedHost).2

/-- All that fits is granted. -/
def allMemory : Allocator := ⟨fun n => n < 2 ^ 63, fun _ => of_decide_eq_true⟩

theorem openedHost_eq : (demoManager.open_ fourBytesCodec "2026-01-01T00:00:00Z".toList
    (Vector.replicate 16 0) 4).run emptyHost = (.ok fourBytesHandle, openedHost) :=
  eq_mk_of_fst_eq (by decide +kernel)

theorem writtenHost_eq : (demoManager.writeChunks fourBytesCodec fourBytesHandle.uploadId
    twoChunks).run openedHost = (.ok (), writtenHost) :=
  eq_mk_of_fst_eq (by decide +kernel)

theorem lastWritten_twoChunks : lastWritten twoChunks = [(0, [1, 2]), (2, [3, 4])] := by
  decide +kernel

theorem assembly_exact_demo : ∃ h', (demoManager.assemble (demoWorld ⟨[], [], []⟩) fourBytesCodec
    allMemory List.reverse fourBytesHandle.uploadId).run writtenHost = (.ok [1, 2, 3, 4], h') := by
  have hfree : emptyHost.disk.node (sessionPlace ["omp".toList]
      (generateId (Vector.replicate 16 0))) = none := by
    decide +kernel
  have hexact := assembly_exact (W := demoWorld ⟨[], [], []⟩) (C := fourBytesCodec)
    (roundTrips_oneState _ _) hfree openedHost_eq writtenHost_eq List.reverse_perm
    (A := allMemory) (.inr (by decide))
  rw [demoManager]
  refine (hexact.1 [1, 2, 3, 4]).2 ?_
  rw [lastWritten_twoChunks]
  refine ⟨?_, rfl⟩
  simp [pieceEnd]

end Omp
