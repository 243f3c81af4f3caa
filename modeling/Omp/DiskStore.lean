import Omp.Commit
import Omp.Lib.Encodings
import Omp.Lib.FileSystem
import Omp.Lib.Lts
import Omp.Lib.Streams

/-!
# Objects on disk

`DiskStore` keeps a file for each object, with the frame of the object compressed.  An object comes
as a whole, and is framed, hashed and compressed at once; or it comes from a reader, and is hashed
and compressed read by read into a temporary file, which is renamed at the end.

The files are those below `objects/`.  Directories are made as they are needed and not modelled.

## Main definitions

* `Reader` : the reads that a reader answers.
* `DiskStore.put`, `DiskStore.putStream`, `DiskStore.get` : the methods.
* `DiskStore.Writes` : what either of the two does to the files.
* `DiskStore.Represents` : the store of objects that the files are.

## Main results

* `putStream_writes`, `put_writes` : both write the object.
* `Represents.writes` : writing an object is `Store.put`.
* `streamed_as_buffered` : in every reachable state the two agree.
-/

namespace Omp

open Lib

/-! ### Frames -/

/-- `ObjectType::parse`. -/
def ObjectType.parse (s : Text) : Except OmpError ObjectType :=
  if s = "blob".toList then .ok .blob
  else if s = "tree".toList then .ok .tree
  else if s = "manifest".toList then .ok .manifest
  else if s = "commit".toList then .ok .commit
  else if s = "chunks".toList then .ok .chunks
  else if s = "share".toList then .ok .share
  else if s = "audit".toList then .ok .audit
  else .error (.corrupt ("unknown object type: ".toList ++ s))

theorem ObjectType.parse_asStr (t : ObjectType) : ObjectType.parse t.asStr = .ok t := by
  cases t <;> decide +kernel

theorem ObjectType.eq_asStr_of_parse {s : Text} {t : ObjectType} (h : ObjectType.parse s = .ok t) :
    s = t.asStr := by
  unfold ObjectType.parse at h
  split_ifs at h with h₁ h₂ h₃ h₄ h₅ h₆ h₇
  all_goals
    cases h
    assumption

/-- The header of a frame. -/
def frameHeader (t : ObjectType) (size : Nat) : Bytes :=
  utf8 (t.asStr ++ ' ' :: decimal size ++ [Char.ofNat 0])

/-- `parse_framed`. -/
def parseFramed (P : Platform) (framed : Bytes) : Except OmpError (ObjectType × Bytes) :=
  match splitOnce 0 framed with
  | none => .error (.corrupt "framed object missing NUL".toList)
  | some (head, content) => match fromUtf8 head with
    | none => .error (.corrupt "framed object header is not UTF-8".toList)
    | some header => match splitOnce ' ' header with
      | none => .error (.corrupt "framed object header lacks space".toList)
      | some (typeStr, sizeStr) => match parseUsize sizeStr with
        | none => .error (.corrupt ("framed object bad size: ".toList ++ P.debugStr sizeStr))
        | some declared => do
          let type ← ObjectType.parse typeStr
          if content.length ≠ declared then
            .error (.corrupt ("framed object size mismatch: declared ".toList ++
              decimal declared ++ ", got ".toList ++ decimal content.length))
          else .ok (type, content)

/-- **What is framed is read back.** -/
theorem parseFramed_frame (P : Platform) (o : Object) (h : o.content.length < 2 ^ 64) :
    parseFramed P o.frame = .ok (o.type, o.content) := by
  obtain ⟨t, content⟩ := o
  have hspace : ' ' ∉ t.asStr := by cases t <;> decide +kernel
  have hzero : (0 : UInt8) ∉ utf8 (t.asStr ++ ' ' :: decimal content.length) := by
    refine zero_not_mem_utf8 ?_
    rw [List.mem_append, List.mem_cons, not_or, not_or]
    refine ⟨by cases t <;> decide +kernel, by decide, fun hmem => ?_⟩
    exact absurd (Nat.isDigit_of_mem_toDigits (by omega) (by omega) hmem) (by decide)
  have hframe : Object.frame ⟨t, content⟩ =
      utf8 (t.asStr ++ ' ' :: decimal content.length) ++ 0 :: content := by
    have hnul : utf8 [Char.ofNat 0] = [0] := by decide
    rw [Object.frame, utf8_append, hnul, List.append_assoc]
    rfl
  rw [parseFramed, hframe, splitOnce_append hzero]
  dsimp only
  rw [fromUtf8_utf8]
  dsimp only
  rw [splitOnce_append hspace]
  dsimp only
  rw [parseUsize_decimal h]
  dsimp only
  rw [ObjectType.parse_asStr]
  exact if_neg (not_not.2 rfl)

/-! ### Readers -/

/-- What is read until a read yields nothing, or fails. -/
def readToEnd : List (Except Text Bytes) → Except Text Bytes
  | [] => .ok []
  | .error e :: _ => .error e
  | .ok chunk :: rest => if chunk = [] then .ok [] else (readToEnd rest).map (chunk ++ ·)

/-- **A reader** : what its reads yield, one after the other.  After that it is at its end. -/
structure Reader where
  reads : List (Except Text Bytes)
  /-- A read fills the buffer at most. -/
  fits : ∀ chunk, .ok chunk ∈ reads → chunk.length ≤ 64 * 1024
  /-- What is read is counted in 64 bits. -/
  counted : ∀ content, readToEnd reads = .ok content → content.length < 2 ^ 64

/-- What a reader delivers. -/
def Reader.delivers (r : Reader) : Except Text Bytes := readToEnd r.reads

/-! ### The store -/

/-- SHA-256 and zlib, as they are used piece by piece. -/
structure DiskCodec where
  sha256 : Hasher Hash
  zlib : Encoder
  /-- `ZlibDecoder`, to its end. -/
  unzip : Bytes → Except Text Bytes

/-- **The digest is that of the whole input, and decompression inverts compression.** -/
structure DiskCodec.Lawful (P : Platform) (C : DiskCodec) : Prop where
  sha256 : C.sha256.Computes P.sha256
  zlib : C.zlib.DecodedBy C.unzip

/-- The files below `objects/`, of a process. -/
structure DiskStore where
  files : Std.ExtTreeMap Place Bytes
  pid : Nat
  /-- The counter in the names of temporary files. -/
  counter : Nat

/-- `object_path`. -/
def objectPath (h : Hash) : Place := [h.hex.take 2, h.hex.drop 2]

namespace DiskStore

variable (P : Platform) (C : DiskCodec) (s : DiskStore)

/-- No files. -/
def init (pid : Nat) : DiskStore := ⟨∅, pid, 0⟩

/-- `Path::exists`, for a file. -/
def has (p : Place) : Bool := s.files[p]?.isSome

/-- Write at the end of a file. -/
def append (p : Place) (bytes : Bytes) : DiskStore :=
  { s with files := s.files.insert p (s.files[p]?.getD [] ++ bytes) }

/-- `fs::write`. -/
def create (p : Place) (bytes : Bytes) : DiskStore := { s with files := s.files.insert p bytes }

/-- `fs::remove_file`. -/
def remove (p : Place) : DiskStore := { s with files := s.files.erase p }

/-- `fs::rename`. -/
def rename (p q : Place) : DiskStore :=
  { s with files := (s.files.erase p).insert q (s.files[p]?.getD []) }

/-- `tmp_counter`. -/
def tick : DiskStore := { s with counter := s.counter + 1 }

/-- A name that no other temporary file of the process has. -/
def tempName (stem : Text) : Text := stem ++ decimal s.pid ++ '.' :: decimal s.counter

/-- The temporary file of `put_stream`. -/
def streamPath : Place := ["tmp".toList, s.tempName "stream.".toList]

/-- `write_atomic`. -/
def writeAtomic (p : Place) (bytes : Bytes) : DiskStore :=
  let tmp := p.dropLast ++ [s.tempName ".tmp.".toList]
  (s.tick.create tmp bytes).rename tmp p

/-- `compress_framed`. -/
def compressFramed (framed : Bytes) : Bytes := C.zlib.output [framed]

/-- `put`. -/
def put (type : Text) (content : Bytes) : Except OmpError Hash × DiskStore :=
  match ObjectType.parse type with
  | .error e => (.error e, s)
  | .ok t =>
    let framed := Object.frame ⟨t, content⟩
    let hash := P.sha256 framed
    let path := objectPath hash
    if s.has path then (.ok hash, s)
    else (.ok hash, s.writeAtomic path (compressFramed C framed))

/-- What `put_stream` keeps from read to read. -/
structure Stream where
  hasher : C.sha256.State
  encoder : C.zlib.State
  total : UInt64
  store : DiskStore

/-- Hash and compress some bytes. -/
def Stream.feed {C : DiskCodec} (st : Stream C) (tmp : Place) (bytes : Bytes) : Stream C :=
  { st with
    hasher := C.sha256.update st.hasher bytes
    encoder := (C.zlib.write st.encoder bytes).1
    store := st.store.append tmp (C.zlib.write st.encoder bytes).2 }

/-- The loop of `put_stream`. -/
def streamLoop (tmp : Place) : List (Except Text Bytes) → Stream C →
    Except OmpError Unit × Stream C
  | [], st => (.ok (), st)
  | .error e :: _, st =>
    (.error (.internal ("put_stream read: ".toList ++ e)), { st with store := st.store.remove tmp })
  | .ok chunk :: rest, st =>
    if chunk = [] then (.ok (), st)
    else streamLoop tmp rest
      { st.feed tmp chunk with total := st.total + UInt64.ofNat chunk.length }

/-- `put_stream`. -/
def putStream (type : Text) (reader : Reader) (knownSize : UInt64) :
    Except OmpError Hash × DiskStore :=
  match ObjectType.parse type with
  | .error e => (.error e, s)
  | .ok t =>
    let header := frameHeader t knownSize.toNat
    let tmp := s.streamPath
    let start : Stream C := ⟨C.sha256.new, C.zlib.new, 0, s.tick.create tmp []⟩
    match streamLoop C tmp reader.reads (start.feed tmp header) with
    | (.error e, st) => (.error e, st.store)
    | (.ok (), st) =>
      if st.total ≠ knownSize then
        (.error (.internal ("put_stream: declared size ".toList ++ decimal knownSize.toNat ++
          " != actual ".toList ++ decimal st.total.toNat)), st.store.remove tmp)
      else
        let store := st.store.append tmp (C.zlib.finish st.encoder)
        let hash := C.sha256.finalize st.hasher
        let path := objectPath hash
        if store.has path then (.ok hash, store.remove tmp)
        else (.ok hash, store.rename tmp path)

/-- `get`. -/
def get (h : Hash) : Except OmpError (Option (Text × Bytes)) :=
  match s.files[objectPath h]? with
  | none => .ok none
  | some raw => do
    let framed ← (C.unzip raw).mapError fun e => .corrupt ("zlib decode: ".toList ++ e)
    let (t, content) ← parseFramed P framed
    .ok (some (t.asStr, content))

end DiskStore

/-! ### Files -/

section Files

variable {s : DiskStore} {p q : Place} {bytes : Bytes} {h g : Hash}

@[simp] theorem files_create :
    (s.create p bytes).files[q]? = if p = q then some bytes else s.files[q]? :=
  Disk.getElem?_insert ..

@[simp] theorem files_append : (s.append p bytes).files[q]? =
    if p = q then some (s.files[p]?.getD [] ++ bytes) else s.files[q]? :=
  Disk.getElem?_insert ..

@[simp] theorem files_remove :
    (s.remove p).files[q]? = if p = q then none else s.files[q]? := Disk.getElem?_erase ..

@[simp] theorem files_rename {r : Place} : (s.rename p q).files[r]? =
    if q = r then some (s.files[p]?.getD []) else if p = r then none else s.files[r]? := by
  rw [DiskStore.rename, Disk.getElem?_insert, Disk.getElem?_erase]

@[simp] theorem files_tick : s.tick.files = s.files := rfl

theorem objectPath_inj : objectPath h = objectPath g ↔ h = g := by
  refine ⟨fun heq => Hash.hex_injective ?_, fun heq => heq ▸ rfl⟩
  obtain ⟨htake, hdrop⟩ := List.cons.inj heq
  rw [← List.take_append_drop 2 h.hex, htake, (List.cons.inj hdrop).1, List.take_append_drop]

/-- A temporary file of `put_stream` is no object. -/
theorem streamPath_ne : s.streamPath ≠ objectPath h := by
  intro heq
  have hlen := congrArg List.length (List.cons.inj heq).1
  have htmp : "tmp".toList.length = 3 := by decide +kernel
  rw [List.length_take, htmp] at hlen
  omega

/-- Neither is one of `write_atomic`. -/
theorem atomicPath_ne :
    (objectPath g).dropLast ++ [s.tempName ".tmp.".toList] ≠ objectPath h := by
  intro heq
  have hname : s.tempName ".tmp.".toList = h.hex.drop 2 :=
    (List.cons.inj (List.cons.inj heq).2).1
  have hdot : '.' ∈ s.tempName ".tmp.".toList := List.mem_cons_self
  rw [hname] at hdot
  exact Hash.not_mem_hex (by decide) (List.mem_of_mem_drop hdot)

end Files

/-! ### The loop -/

section Loop

variable {P : Platform} {C : DiskCodec} {s : DiskStore} {tmp : Place} {header content : Bytes}
  {st : DiskStore.Stream C}

/-- **What a stream was fed** : a header and a content, which are in the temporary file. -/
structure Fed (s : DiskStore) (tmp : Place) (header content : Bytes) (st : DiskStore.Stream C) :
    Prop where
  pieces : ∃ pieces, pieces.flatten = header ++ content ∧ st.hasher = C.sha256.after pieces ∧
    st.encoder = (C.zlib.after pieces).1 ∧ st.store.files[tmp]? = some (C.zlib.after pieces).2
  total : st.total = UInt64.ofNat content.length
  other : ∀ p, p ≠ tmp → st.store.files[p]? = s.files[p]?

theorem fed_start (C : DiskCodec) (s : DiskStore) (tmp : Place) (header : Bytes) :
    Fed s tmp header [] ((⟨C.sha256.new, C.zlib.new, 0, s.tick.create tmp []⟩ :
      DiskStore.Stream C).feed tmp header) := by
  refine ⟨⟨[header], rfl, rfl, rfl, ?_⟩, rfl, fun p hp => ?_⟩
  · simp only [DiskStore.Stream.feed, files_append, files_create, if_true, Option.getD_some]
    rfl
  · simp only [DiskStore.Stream.feed, files_append, files_create, if_neg (Ne.symm hp), files_tick]

/-- **A read is fed.** -/
theorem Fed.step (hf : Fed s tmp header content st) (chunk : Bytes) :
    Fed s tmp header (content ++ chunk)
      { st.feed tmp chunk with total := st.total + UInt64.ofNat chunk.length } := by
  obtain ⟨⟨pieces, hflat, hhasher, hencoder, hfile⟩, htotal, hother⟩ := hf
  refine ⟨⟨pieces ++ [chunk], ?_, ?_, ?_, ?_⟩, ?_, fun p hp => ?_⟩
  · rw [List.flatten_concat, hflat, List.append_assoc]
  · rw [Hasher.after_concat, ← hhasher]
    rfl
  · rw [Encoder.after_concat, ← hencoder]
    rfl
  · simp only [DiskStore.Stream.feed, files_append, if_true, hfile, Encoder.after_concat, hencoder,
      Option.getD_some]
  · rw [List.length_append, UInt64.ofNat_add, htotal]
  · simp only [DiskStore.Stream.feed, files_append, if_neg (Ne.symm hp), hother p hp]

/-- **The loop feeds what the reader delivers.** -/
theorem streamLoop_of_ok {reads : List (Except Text Bytes)} {rest : Bytes}
    (hread : readToEnd reads = .ok rest) (hf : Fed s tmp header content st) :
    ∃ st', DiskStore.streamLoop C tmp reads st = (.ok (), st') ∧
      Fed s tmp header (content ++ rest) st' := by
  induction reads generalizing content rest st with
  | nil =>
    cases hread
    exact ⟨st, rfl, by rwa [List.append_nil]⟩
  | cons read reads ih =>
    cases read with
    | error e => cases hread
    | ok chunk =>
      rw [readToEnd] at hread
      rw [DiskStore.streamLoop]
      split_ifs at hread ⊢ with hnil
      · cases hread
        exact ⟨st, rfl, by rwa [List.append_nil]⟩
      · obtain ⟨rest', hrest', rfl⟩ := map_eq_ok.1 hread
        rw [← List.append_assoc]
        exact ih hrest' (hf.step chunk)

/-- Where the reader fails, the temporary file is removed. -/
theorem streamLoop_of_error {reads : List (Except Text Bytes)} {e : Text}
    (hread : readToEnd reads = .error e) (hf : Fed s tmp header content st) :
    ∃ st', DiskStore.streamLoop C tmp reads st =
        (.error (.internal ("put_stream read: ".toList ++ e)), st') ∧
      ∀ p, st'.store.files[p]? = if tmp = p then none else s.files[p]? := by
  induction reads generalizing content st with
  | nil => cases hread
  | cons read reads ih =>
    cases read with
    | error e' =>
      cases hread
      refine ⟨_, rfl, fun p => ?_⟩
      rw [files_remove]
      split_ifs with hp
      · rfl
      · exact hf.other p (Ne.symm hp)
    | ok chunk =>
      rw [readToEnd] at hread
      rw [DiskStore.streamLoop]
      split_ifs at hread ⊢ with hnil
      · exact ih (map_eq_error.1 hread) (hf.step chunk)

end Loop

/-! ### Writing -/

section Writing

variable {P : Platform} {C : DiskCodec} {s s' s'' : DiskStore} {o : Object} {t : ObjectType}
  {content : Bytes} {reader : Reader} {size : UInt64} {h : Hash}

/-- **What writing an object does to the objects** : nothing where its path is taken, and otherwise
there is its compressed frame. -/
structure DiskStore.Writes (P : Platform) (C : DiskCodec) (s : DiskStore) (o : Object)
    (s' : DiskStore) : Prop where
  present : s.has (objectPath (o.address P)) = true →
    ∀ h, s'.files[objectPath h]? = s.files[objectPath h]?
  absent : s.has (objectPath (o.address P)) = false → ∃ raw, C.unzip raw = .ok o.frame ∧
    ∀ h, s'.files[objectPath h]? = if o.address P = h then some raw else s.files[objectPath h]?

/-- **`put` writes the object**, and does nothing where it is there. -/
theorem put_writes (hC : C.Lawful P) (s : DiskStore) (t : ObjectType) (content : Bytes) :
    (s.put P C t.asStr content).1 = .ok (hashOf P t content) ∧
      s.Writes P C ⟨t, content⟩ (s.put P C t.asStr content).2 ∧
      (s.has (objectPath (hashOf P t content)) = true → (s.put P C t.asStr content).2 = s) := by
  have hput : s.put P C t.asStr content = if s.has (objectPath (hashOf P t content)) then
      (.ok (hashOf P t content), s)
    else (.ok (hashOf P t content), s.writeAtomic (objectPath (hashOf P t content))
      (DiskStore.compressFramed C (Object.frame ⟨t, content⟩))) := by
    rw [DiskStore.put, ObjectType.parse_asStr]
    rfl
  rw [hput]
  split_ifs with hhas
  · exact ⟨rfl, ⟨fun _ _ => rfl, fun hnot => absurd (hhas.symm.trans hnot) (by simp)⟩, fun _ => rfl⟩
  · refine ⟨rfl, ⟨fun hhas' => absurd hhas' hhas, fun _ =>
      ⟨C.zlib.output [Object.frame ⟨t, content⟩], ?_, fun h => ?_⟩⟩,
      fun hhas' => absurd hhas' hhas⟩
    · exact (hC.zlib [Object.frame ⟨t, content⟩]).trans (by rw [List.flatten_singleton])
    · have htmp : ∀ h, (objectPath (hashOf P t content)).dropLast ++
          [s.tempName ".tmp.".toList] ≠ objectPath h := fun h => atomicPath_ne
      simp only [DiskStore.writeAtomic, files_rename, files_create, if_true, Option.getD_some,
        if_neg (htmp h), objectPath_inj, files_tick]
      rfl

/-- **`put_stream` writes the object** that is delivered, and leaves no temporary file. -/
theorem putStream_writes (hC : C.Lawful P) (s : DiskStore) (t : ObjectType)
    (hr : reader.delivers = .ok content) (hsize : content.length = size.toNat) :
    (s.putStream C t.asStr reader size).1 = .ok (hashOf P t content) ∧
      s.Writes P C ⟨t, content⟩ (s.putStream C t.asStr reader size).2 ∧
      (s.has (objectPath (hashOf P t content)) = true → ∀ p,
        (s.putStream C t.asStr reader size).2.files[p]? =
          if s.streamPath = p then none else s.files[p]?) := by
  obtain ⟨st, hloop, hfed⟩ := streamLoop_of_ok hr
    (fed_start C s s.streamPath (frameHeader t size.toNat))
  obtain ⟨⟨pieces, hflat, hhasher, hencoder, hfile⟩, htotal, hother⟩ := hfed
  rw [List.nil_append] at hflat htotal
  have hframe : pieces.flatten = Object.frame ⟨t, content⟩ := by
    rw [hflat, ← hsize]
    rfl
  have hhash : C.sha256.finalize st.hasher = hashOf P t content := by
    rw [hhasher, hC.sha256, hframe]
    rfl
  have hknown : st.total = size := by
    rw [htotal, hsize, UInt64.ofNat_toNat]
  have hhas : (st.store.append s.streamPath (C.zlib.finish st.encoder)).has
      (objectPath (hashOf P t content)) = s.has (objectPath (hashOf P t content)) := by
    rw [DiskStore.has, files_append, if_neg streamPath_ne, hother _ (Ne.symm streamPath_ne)]
    rfl
  have hput : s.putStream C t.asStr reader size =
      if s.has (objectPath (hashOf P t content)) then (.ok (hashOf P t content),
        (st.store.append s.streamPath (C.zlib.finish st.encoder)).remove s.streamPath)
      else (.ok (hashOf P t content), (st.store.append s.streamPath
        (C.zlib.finish st.encoder)).rename s.streamPath (objectPath (hashOf P t content))) := by
    rw [DiskStore.putStream, ObjectType.parse_asStr]
    dsimp only
    rw [hloop]
    dsimp only
    rw [if_neg (not_not.2 hknown), hhash, hhas]
  rw [hput]
  split_ifs with hpresent
  · have hfiles (p : Place) : ((st.store.append s.streamPath
        (C.zlib.finish st.encoder)).remove s.streamPath).files[p]? =
          if s.streamPath = p then none else s.files[p]? := by
      rw [files_remove, files_append]
      split_ifs with hp
      · rfl
      · exact hother p (Ne.symm hp)
    refine ⟨rfl, ⟨fun _ h => ?_, fun hnot => absurd (hpresent.symm.trans hnot) (by simp)⟩,
      fun _ => hfiles⟩
    rw [hfiles, if_neg streamPath_ne]
  · refine ⟨rfl, ⟨fun hhas' => absurd hhas' hpresent, fun _ => ⟨C.zlib.output pieces,
      (hC.zlib pieces).trans (by rw [hframe]), fun h => ?_⟩⟩, fun hhas' => absurd hhas' hpresent⟩
    rw [files_rename, files_append, files_append, if_pos rfl, hfile, if_neg streamPath_ne,
      hother _ (Ne.symm streamPath_ne), hencoder]
    simp only [objectPath_inj, if_neg streamPath_ne, Option.getD_some]
    rfl

/-- **Where the reader fails, or delivers another length, `put_stream` fails**, and leaves no
temporary file. -/
theorem putStream_refused (s : DiskStore) (t : ObjectType)
    (hr : ∀ content, reader.delivers = .ok content → content.length ≠ size.toNat) :
    (∃ e, (s.putStream C t.asStr reader size).1 = .error e) ∧ ∀ p,
      (s.putStream C t.asStr reader size).2.files[p]? =
        if s.streamPath = p then none else s.files[p]? := by
  have hstart := fed_start C s s.streamPath (frameHeader t size.toNat)
  rw [DiskStore.putStream, ObjectType.parse_asStr]
  dsimp only
  cases hread : readToEnd reader.reads with
  | error e =>
    obtain ⟨st, hloop, hfiles⟩ := streamLoop_of_error hread hstart
    rw [hloop]
    exact ⟨⟨_, rfl⟩, hfiles⟩
  | ok content =>
    obtain ⟨st, hloop, hfed⟩ := streamLoop_of_ok hread hstart
    have hknown : st.total ≠ size := by
      rintro rfl
      have hcounted := reader.counted content hread
      refine hr content hread ?_
      rw [hfed.total, List.nil_append, UInt64.toNat_ofNat', Nat.mod_eq_of_lt hcounted]
    rw [hloop]
    dsimp only
    rw [if_pos hknown]
    refine ⟨⟨_, rfl⟩, fun p => ?_⟩
    rw [files_remove]
    split_ifs with hp
    · rfl
    · exact hfed.other p (Ne.symm hp)

end Writing

/-! ### Reading -/

section Reading

variable {P : Platform} {C : DiskCodec} {s s' : DiskStore} {o : Object} {h : Hash} {S : Store}

theorem get_congr (hfiles : s'.files[objectPath h]? = s.files[objectPath h]?) :
    s'.get P C h = s.get P C h := by
  rw [DiskStore.get, DiskStore.get, hfiles]

/-- What is not there is not found. -/
theorem has_of_get (hget : s.get P C h = .ok none) : s.has (objectPath h) = false := by
  rw [DiskStore.get] at hget
  rw [DiskStore.has]
  cases hfile : s.files[objectPath h]? with
  | none => rfl
  | some raw =>
    rw [hfile] at hget
    obtain ⟨framed, -, hget⟩ := except_bind_eq_ok.1 hget
    obtain ⟨⟨t, content⟩, -, hget⟩ := except_bind_eq_ok.1 hget
    cases hget

theorem get_of_has (hhas : s.has (objectPath h) = false) : s.get P C h = .ok none := by
  rw [DiskStore.has, Option.isSome_eq_false_iff, Option.isNone_iff_eq_none] at hhas
  rw [DiskStore.get, hhas]

/-- What the store yields for an object. -/
def Object.reply (o : Object) : Text × Bytes := (o.type.asStr, o.content)

/-- **What is read after an object is written.** -/
theorem DiskStore.Writes.get (hw : s.Writes P C o s') (ho : o.content.length < 2 ^ 64) (h : Hash) :
    s'.get P C h = if o.address P = h ∧ s.has (objectPath h) = false then .ok (some o.reply)
      else s.get P C h := by
  cases hhas : s.has (objectPath (o.address P)) with
  | true =>
    rw [if_neg]
    · exact get_congr (hw.present hhas h)
    · rintro ⟨rfl, hnot⟩
      rw [hhas] at hnot
      cases hnot
  | false =>
    obtain ⟨raw, hraw, hfiles⟩ := hw.absent hhas
    by_cases haddr : o.address P = h
    · subst haddr
      have hfile := hfiles (o.address P)
      rw [if_pos rfl] at hfile
      rw [if_pos ⟨rfl, hhas⟩, DiskStore.get, hfile]
      dsimp only
      rw [hraw]
      show (parseFramed P o.frame >>= _) = _
      rw [parseFramed_frame P o ho]
      rfl
    · have hfile := hfiles h
      rw [if_neg haddr] at hfile
      rw [if_neg fun hand => haddr hand.1]
      exact get_congr hfile

/-- **The store of objects that the files are.** -/
def DiskStore.Represents (P : Platform) (C : DiskCodec) (s : DiskStore) (S : Store) : Prop :=
  ∀ h, s.get P C h = .ok ((S.get P h).map Object.reply)

theorem get_concat (S : Store) (o : Object) (h : Hash) : Store.get P ⟨S.objects ++ [o]⟩ h =
    (S.get P h).or (if o.address P = h then some o else none) := by
  rw [Store.get, Cas.find, List.find?_append, List.find?_singleton]
  simp only [decide_eq_true_eq]
  rfl

/-- **Writing an object is `Store.put`.** -/
theorem DiskStore.Represents.writes (hS : s.Represents P C S) (hw : s.Writes P C o s')
    (ho : o.content.length < 2 ^ 64) : s'.Represents P C ⟨S.objects ++ [o]⟩ := by
  intro h
  rw [hw.get ho h, get_concat]
  have hget := hS h
  cases hfound : S.get P h with
  | none =>
    rw [hfound] at hget
    rw [hget]
    by_cases haddr : o.address P = h
    · rw [if_pos ⟨haddr, has_of_get hget⟩, if_pos haddr]
      rfl
    · rw [if_neg fun hand => haddr hand.1, if_neg haddr]
      rfl
  | some o' =>
    rw [hfound] at hget
    have hhas : s.has (objectPath h) ≠ false := by
      intro hnot
      rw [get_of_has hnot] at hget
      cases hget
    rw [if_neg fun hand => hhas hand.2, hget]
    rfl

end Reading

/-! ### Runs -/

/-- A content, as the program has it: its length is a machine word. -/
abbrev Content := { bs : Bytes // bs.length < 2 ^ 64 }

/-- A request to store an object. -/
inductive DiskStep where
  | put (type : Text) (content : Content)
  | putStream (type : Text) (reader : Reader) (knownSize : UInt64)

namespace DiskStore

variable (P : Platform) (C : DiskCodec)

/-- What a request does. -/
def serve (s : DiskStore) : DiskStep → Except OmpError Hash × DiskStore
  | .put type content => s.put P C type content
  | .putStream type reader knownSize => s.putStream C type reader knownSize

/-- A store to which requests are made. -/
def lts : Lts DiskStore DiskStep where
  step s l s' := (s.serve P C l).2 = s'

/-- No two different objects, among those that are read and the one that is written, have the same
address. -/
def CollisionFree (s : DiskStore) (o : Object) : Prop :=
  Set.InjOn (Object.address P) (insert o {o' | ∃ h, s.get P C h = .ok (some o'.reply)})

/-- **Streamed and buffered writes agree.** -/
structure Agrees (s : DiskStore) : Prop where
  /-- They return the same hash, and leave the same objects. -/
  same : ∀ (t : ObjectType) (content : Content) (reader : Reader) (size : UInt64),
    reader.delivers = .ok content → content.1.length = size.toNat →
      (s.put P C t.asStr content).1 = .ok (hashOf P t content) ∧
      (s.putStream C t.asStr reader size).1 = .ok (hashOf P t content) ∧
      ∀ h, (s.putStream C t.asStr reader size).2.get P C h =
        (s.put P C t.asStr content).2.get P C h
  /-- What was written is read. -/
  found : ∀ (t : ObjectType) (content : Content), s.CollisionFree P C ⟨t, content⟩ →
    (s.put P C t.asStr content).2.get P C (hashOf P t content) = .ok (some (t.asStr, content))
  /-- Where the object is present, nothing changes, but for a temporary file left behind. -/
  present : ∀ (t : ObjectType) (content : Content),
    s.get P C (hashOf P t content) ≠ .ok none →
      (s.put P C t.asStr content).2 = s ∧
      ∀ (reader : Reader) (size : UInt64), reader.delivers = .ok content →
        content.1.length = size.toNat → ∀ p,
          (s.putStream C t.asStr reader size).2.files[p]? =
            if s.streamPath = p then none else s.files[p]?
  /-- A reader that fails, or delivers another length, is refused, and nothing becomes visible. -/
  refused : ∀ (t : ObjectType) (reader : Reader) (size : UInt64),
    (∀ content, reader.delivers = .ok content → content.length ≠ size.toNat) →
      (∃ e, (s.putStream C t.asStr reader size).1 = .error e) ∧
      ∀ p, (s.putStream C t.asStr reader size).2.files[p]? =
        if s.streamPath = p then none else s.files[p]?

end DiskStore

section Runs

variable {P : Platform} {C : DiskCodec} {s : DiskStore}

/-- What is in the files stays a store of objects. -/
theorem represents_serve (hC : C.Lawful P) {S : Store} (hS : s.Represents P C S) (l : DiskStep) :
    ∃ S', DiskStore.Represents P C (s.serve P C l).2 S' := by
  cases l with
  | put type content =>
    cases ht : ObjectType.parse type with
    | error e =>
      refine ⟨S, ?_⟩
      rw [DiskStore.serve, DiskStore.put, ht]
      exact hS
    | ok t =>
      rw [ObjectType.eq_asStr_of_parse ht]
      exact ⟨_, hS.writes (put_writes hC s t content).2.1 content.2⟩
  | putStream type reader size =>
    cases ht : ObjectType.parse type with
    | error e =>
      refine ⟨S, ?_⟩
      rw [DiskStore.serve, DiskStore.putStream, ht]
      exact hS
    | ok t =>
      rw [ObjectType.eq_asStr_of_parse ht]
      by_cases hr : ∃ content, reader.delivers = .ok content ∧ content.length = size.toNat
      · obtain ⟨content, hr, hsize⟩ := hr
        exact ⟨_, hS.writes (putStream_writes hC s t hr hsize).2.1 (reader.counted content hr)⟩
      · have hrefused := putStream_refused (C := C) s t fun content hr' hsize =>
          hr ⟨content, hr', hsize⟩
        refine ⟨S, fun h => (get_congr ?_).trans (hS h)⟩
        exact (hrefused.2 _).trans (if_neg streamPath_ne)

/-- **In every reachable state streamed and buffered writes agree.** -/
theorem streamed_as_buffered (hC : C.Lawful P) {pid : Nat}
    (hreach : (DiskStore.lts P C).Reachable (fun _ _ => True) (.init pid) s) : s.Agrees P C := by
  obtain ⟨S, hS⟩ : ∃ S, s.Represents P C S := by
    refine hreach.invariant (I := fun s => ∃ S, s.Represents P C S) ⟨⟨[]⟩, fun h => ?_⟩ ?_
    · rw [DiskStore.get, DiskStore.init, Std.ExtTreeMap.getElem?_empty]
      rfl
    · rintro s l _ ⟨S, hS⟩ - rfl
      exact represents_serve hC hS l
  refine ⟨fun t content reader size hr hsize => ?_, fun t content hcf => ?_,
    fun t content hpresent => ?_, fun t reader size hr => putStream_refused s t hr⟩
  · obtain ⟨hput, hwrites, -⟩ := put_writes hC s t content
    obtain ⟨hstream, hwrites', -⟩ := putStream_writes hC s t hr hsize
    refine ⟨hput, hstream, fun h => ?_⟩
    rw [hwrites'.get content.2, hwrites.get content.2]
  · rw [(put_writes hC s t content).2.1.get content.2]
    split_ifs with hnew
    · rfl
    · -- the path is taken, by an object of the same address
      have hget := hS (hashOf P t content)
      cases hfound : S.get P (hashOf P t content) with
      | none =>
        rw [hfound] at hget
        exact absurd ⟨rfl, has_of_get hget⟩ hnew
      | some o =>
        rw [hfound] at hget
        have hsame : o = ⟨t, content⟩ := hcf (Set.mem_insert_of_mem _ ⟨_, hget⟩)
          (Set.mem_insert _ _) (Store.hashOf_of_get hfound)
        rw [hget, hsame]
        rfl
  · have hhas : s.has (objectPath (hashOf P t content)) = true := by
      rw [← Bool.not_eq_false]
      exact fun hnot => hpresent (get_of_has hnot)
    refine ⟨(put_writes hC s t content).2.2 hhas, fun reader size hr hsize => ?_⟩
    exact (putStream_writes hC s t hr hsize).2.2 hhas

end Runs

/-! ### A store to compute with -/

/-- A hasher that keeps its input, and an encoder that does not compress. -/
def demoCodec : DiskCodec where
  sha256 := ⟨Bytes, [], fun state bytes => state ++ bytes, demo.sha256⟩
  zlib := ⟨Unit, (), fun _ bytes => ((), bytes), fun _ => []⟩
  unzip := .ok

theorem demoCodec_lawful : demoCodec.Lawful demo where
  sha256 pieces := by
    have hafter : demoCodec.sha256.after pieces = pieces.flatten := by
      induction pieces using List.reverseRecOn with
      | nil => rfl
      | append_singleton pieces piece ih =>
        rw [Hasher.after_concat, ih, List.flatten_concat]
        rfl
    rw [hafter]
    rfl
  zlib pieces := by
    have hafter : (demoCodec.zlib.after pieces).2 = pieces.flatten := by
      induction pieces using List.reverseRecOn with
      | nil => rfl
      | append_singleton pieces piece ih =>
        rw [Encoder.after_concat, ih, List.flatten_concat]
        rfl
    rw [Encoder.output, hafter]
    exact congrArg _ (List.append_nil _)

theorem streamed_as_buffered_demo : DiskStore.Agrees demo demoCodec
    ((DiskStore.init 7).put demo demoCodec "blob".toList [1, 2]).2 :=
  streamed_as_buffered demoCodec_lawful
    (.tail (.refl _) (l := .put "blob".toList ⟨[1, 2], by decide⟩) trivial rfl)

end Omp
