import Omp.Market
import Omp.Server
import Omp.Streaming
import Omp.Tokens

/-!
# Files in multipart bodies

`post_file` reads a multipart body part by part, and adds what the parts hold.  The body comes over
a connection: the header of the next part and the body of a part can each fail to be read.  Of the
library that reads them nothing is assumed but that each read succeeds or fails.

A failed header ends the loop as the end of the body does, and a failed text or file counts as
empty.  So a body that was cut is added as if it were whole, unless what is left of it is refused.

## Main definitions

* `Multipart` : what comes of the reads.
* `Form.read` : the loop.
* `Multipart.Whole`, `Sent` : no read fails, and what was sent then.
* `Repo.Staged` : what `add` stages.
* `Honest` : a body is added as it was sent, or refused.
* `Repo.Accepts` : what `add` checks.

## Main results

* `succeeds_add` : `add` succeeds exactly when its checks pass.
* `staged_of_add` : what it stages then.
* `honest_iff` : a cut body is refused exactly when what is left of it is.
-/

namespace Omp

open Lib RepoScript

/-! ### Values -/

/-- The number before an exponent, over a power of ten. -/
def splitMantissa (s : Text) : Option (Nat × Nat) :=
  let (whole, frac) := (splitOnce '.' s).getD (s, [])
  let digits := whole ++ frac
  if digits = [] ∨ digits.all Char.isDigit = false then none
  else some (Nat.ofDigitChars 10 digits 0, frac.length)

/-- An exponent with a sign. -/
def parseExponent (s : Text) : Option Int :=
  let ds := (Query.splitSign s).2
  if ds = [] ∨ ds.all Char.isDigit = false then none else some (Query.intOf s)

/-- A float in decimal notation without a sign. -/
def decimalFloat (s : Text) : Option F64 := do
  let isE (c : Char) : Bool := c == 'e' || c == 'E'
  let exponent ← match s.dropWhile fun c => !isE c with
    | [] => some 0
    | _ :: ds => parseExponent ds
  let (n, places) ← splitMantissa (s.takeWhile fun c => !isE c)
  let e := exponent - places
  some (F64.ofRatio (n * 10 ^ e.toNat) (10 ^ (-e).toNat))

/-- `str::parse::<f64>`. -/
def parseFloat (s : Text) : Option F64 :=
  let (minus, s) := Query.splitSign s
  let magnitude :=
    if Query.lower s = "inf".toList ∨ Query.lower s = "infinity".toList then
      some ⟨0x7FF0000000000000⟩
    else if Query.lower s = "nan".toList then some ⟨0x7FF8000000000000⟩
    else decimalFloat s
  magnitude.map fun x => if minus then x.neg else x

/-- `parse_scalar`. -/
def parseScalar (v : Text) : FieldValue :=
  match Query.parseI64 v, parseFloat v with
  | some i, _ => .int i
  | none, some x => .float x
  | none, none =>
    if v = "true".toList then .bool true
    else if v = "false".toList then .bool false
    else .string v

example : parseScalar "-12".toList = .int (-12) ∧ parseScalar "1e-1".toList =
    .float (F64.ofRatio 1 10) ∧ parseScalar "1e".toList = .string "1e".toList := by decide +kernel

/-! ### Reading a body -/

/-- What `next_field` yields, unless the body has ended: a part, or an error. -/
inductive NextField where
  | part (p : Part)
  | broken

/-- What comes of the reads. -/
abbrev Multipart := List NextField

/-- The name of a field of a file: `fields[key]`. -/
def isFieldName (n : Text) : Bool := "fields[".toList.isPrefixOf n && n.getLast? == some ']'

/-- The name of a field with a key. -/
def fieldName (key : Text) : Text := "fields[".toList ++ (key ++ [']'])

/-- The key in the name of a field. -/
def fieldKey (n : Text) : Text := (n.drop 7).dropLast

/-- One round of the loop. -/
def Form.absorb (form : Form) (p : Part) : Form :=
  let name := p.name.getD []
  let text := p.text.getD []
  let bytes := p.bytes.getD []
  if name = "path".toList then { form with path := some text }
  else if name = "file".toList then { form with file := some bytes }
  else if name = "file_type".toList then { form with fileType := some text }
  else if isFieldName name then
    { form with fields := form.fields.insert (fieldKey name) (parseScalar text) }
  else form

/-- The loop of `post_file`, which an error ends as the end of the body does. -/
def Form.read (form : Form) : Multipart → Form
  | [] | .broken :: _ => form
  | .part p :: rest => (form.absorb p).read rest

/-- Nothing has been read. -/
def Form.empty : Form := ⟨none, none, none, ∅, none⟩

variable (W : World) (tr : TenantRepo) (env : Env) {J : Type}

/-- The reply of `post_file` to a form that has been read, and the repository afterwards. -/
def posted (form : Form) (r : Repo) : Response J × Repo :=
  let ((reply, _), r') := serve (quietly (postFile W tr env form)) r
  (reply, r')

/-- `post_file`. -/
def postMultipart (mp : Multipart) : Repo → Response J × Repo := posted W tr env (Form.empty.read mp)

/-! ### What was sent -/

namespace Multipart

/-- The parts that are read as text. -/
def isText (name : Text) : Bool :=
  name == "path".toList || name == "file_type".toList || isFieldName name

/-- A read that succeeds, of the header and of the body. -/
def succeeds : NextField → Bool
  | .part p => if isText (p.name.getD []) then p.text.isSome else p.bytes.isSome
  | .broken => false

/-- **No read fails.** -/
def Whole (mp : Multipart) : Prop := ∀ x ∈ mp, succeeds x = true

/-- A text of a name, in a part. -/
def textOf (name : Text) : NextField → Option Text
  | .part p => if p.name.getD [] = name then p.text else none
  | .broken => none

/-- A file of a name, in a part. -/
def bytesOf (name : Text) : NextField → Option Bytes
  | .part p => if p.name.getD [] = name then p.bytes else none
  | .broken => none

/-- What the last part holds that holds it. -/
def last {α : Type} (get : NextField → Option α) (mp : Multipart) : Option α :=
  mp.reverse.findSome? get

end Multipart

/-- **What was sent**, of which the last part of a name counts. -/
structure Sent (mp : Multipart) (form : Form) : Prop where
  path : form.path = mp.last (Multipart.textOf "path".toList)
  file : form.file = mp.last (Multipart.bytesOf "file".toList)
  fileType : form.fileType = mp.last (Multipart.textOf "file_type".toList)
  fields : ∀ key, form.fields[key]? =
    (mp.last (Multipart.textOf (fieldName key))).map parseScalar

/-- An error, or a connection that is closed. -/
def Response.IsError (reply : Response J) : Prop := ∀ status ∈ reply.status, 400 ≤ status

/-- The repository with the content of a file, in one blob or in chunks. -/
def Repo.withContent (config : RepoConfig) (bytes : Bytes) (r : Repo) : Repo :=
  if config.chunkSizeBytes ≤ bytes.length then r.withChunks W config.chunkSizeBytes bytes
  else { r with store := ⟨r.store.objects ++ [⟨.blob, bytes⟩]⟩ }

/-- The repository with an object that is staged at a path. -/
def Repo.staging (path : Text) (type : ObjectType) (content : Bytes) (r : Repo) : Repo :=
  { r with
    store := ⟨r.store.objects ++ [⟨type, content⟩]⟩
    index := r.index.insert path ⟨path, .upsert, some (hashOf W.toPlatform type content)⟩ }

/-- **What `add` stages**: the bytes at a blob path, and else the manifest of the bytes and the
fields. -/
def Repo.Staged (req : AddRequest) (r r' : Repo) : Prop :=
  if isBlobPath req.path then r' = r.staging W req.path .blob req.bytes
  else ∃ config m bytes, r.currentRepoConfig W env = .ok config ∧
    r.addedManifest W env req config = .ok m ∧ m.serialize W = .ok bytes ∧
    r' = (r.withContent W config req.bytes).staging W req.path .manifest bytes

/-- A form is added: its bytes and its fields are staged at its path. -/
def Stored (form : Form) (r : Repo) (res : Response J × Repo) : Prop :=
  ∃ path bytes added, form.path = some path ∧ form.file = some bytes ∧
    res.1 = .json 200 (.added added) ∧
    Repo.Staged W env ⟨path, bytes, some form.fields, form.fileType⟩ r res.2

/-- **What is posted is added as it was sent, or refused**: then the index is as it was. -/
def Honest (mp : Multipart) (r : Repo) : Prop :=
  let res : Response J × Repo := postMultipart W tr env mp r
  (mp.Whole ∧ ∃ form, Sent mp form ∧ Stored W env form r res) ∨
    (res.1.IsError ∧ res.2.index = r.index)

/-! ### What `add` checks -/

/-- **The checks of `add`.** -/
def Repo.Accepts (r : Repo) (req : AddRequest) : Prop :=
  validatePath W req.path = .ok () ∧
  checkQuotaForWrite W env.quotas r.store req.bytes.length 1 = .ok () ∧
  if isBlobPath req.path then r.preflight W req.path req.bytes = .ok ()
  else ∃ config m bytes, r.currentRepoConfig W env = .ok config ∧
    r.addedManifest W env req config = .ok m ∧ m.serialize W = .ok bytes

variable {W} in
/-- A script that succeeds. -/
def RepoScript.Succeeds {α : Type} (t : RepoScript α) (r : Repo) : Prop :=
  ∃ a r', (t.run (Action.op W)).run r = (.ok a, r')

section Succeeds

variable {W} {α β : Type} {r : Repo} {k : α → RepoScript β}

theorem succeeds_inspect {f : Repo → Except (Fault OmpError) α} :
    Succeeds (W := W) (inspect f >>= k) r ↔ ∃ a, f r = .ok a ∧ Succeeds (W := W) (k a) r := by
  constructor
  · rintro ⟨b, r', h⟩
    obtain ⟨a, ha, hk⟩ := inspect_eq_ok.1 h
    exact ⟨a, ha, b, r', hk⟩
  · rintro ⟨a, ha, b, r', hk⟩
    exact ⟨b, r', inspect_eq_ok.2 ⟨a, ha, hk⟩⟩

theorem succeeds_check {f : Repo → Except OmpError α} :
    Succeeds (W := W) (check f >>= k) r ↔ ∃ a, f r = .ok a ∧ Succeeds (W := W) (k a) r := by
  refine (succeeds_inspect (f := fun r => (f r).mapError .err)).trans ?_
  simp only [mapError_eq_ok]

theorem succeeds_put {type : ObjectType} {content : Bytes} {k : Hash → RepoScript β} :
    Succeeds (W := W) (put W type content >>= k) r ↔
      Succeeds (W := W) (k (hashOf W.toPlatform type content))
        { r with store := ⟨r.store.objects ++ [⟨type, content⟩]⟩ } :=
  exists_congr fun _ => exists_congr fun _ => put_eq_ok

theorem succeeds_stage (path : Text) (hash : Hash) (b : β) :
    Succeeds (W := W) (stage path hash >>= fun _ => pure b) r :=
  ⟨b, _, loadIndex_eq_ok.2 (saveIndex_eq_ok.2 rfl)⟩

/-- A manifest is staged if it can be written. -/
theorem succeeds_stageManifest {path : Text} {m : Manifest} {sourceHash : Hash} :
    Succeeds (W := W) (Repo.stageManifest W path m sourceHash) r ↔
      ∃ bytes, m.serialize W = .ok bytes := by
  refine succeeds_check.trans (exists_congr fun bytes => and_iff_left ?_)
  exact succeeds_put.2 (succeeds_stage _ _ _)

/-- A long file is added if its manifest can be built and written. -/
theorem succeeds_addChunked {env : Env} {req : AddRequest} {chunkSize : Nat} :
    Succeeds (W := W) (Repo.addChunked W env req chunkSize) r ↔ ∃ m,
      (r.withChunks W chunkSize req.bytes).buildManifestWith W env req.path []
        (req.userFields.getD ∅) req.fileTypeOverride
        (some (chunkedIngest W chunkSize req.bytes)) = .ok m ∧
      ∃ bytes, m.serialize W = .ok bytes := by
  constructor
  · rintro ⟨res, r', h⟩
    obtain ⟨entries, s, hslices, h⟩ := objects_eq_ok.1 h
    rw [Repo.run_putSlices] at hslices
    cases hslices
    obtain ⟨m, hm, h⟩ := inspect_eq_ok.1 (put_eq_ok.1 h)
    exact ⟨m, hm, succeeds_stageManifest.1 ⟨res, r', h⟩⟩
  · rintro ⟨m, hm, hbytes⟩
    obtain ⟨res, r', h⟩ := succeeds_stageManifest.2 hbytes
    exact ⟨res, r', objects_eq_ok.2 ⟨_, _, Repo.run_putSlices _ _, put_eq_ok.2
      (inspect_eq_ok.2 ⟨m, hm, h⟩)⟩⟩

end Succeeds

variable {W env} {r : Repo} {req : AddRequest}

/-- **`add` succeeds exactly when its checks pass.** -/
theorem succeeds_add : Succeeds (W := W) (Repo.add W env req) r ↔ r.Accepts W env req := by
  have hunit {p : Unit → Prop} : (∃ u, p u) ↔ p () := ⟨fun ⟨_, h⟩ => h, fun h => ⟨(), h⟩⟩
  refine succeeds_check.trans (hunit.trans (and_congr_right fun _ => ?_))
  refine succeeds_check.trans (hunit.trans (and_congr_right fun _ => ?_))
  split_ifs with hblob
  · exact succeeds_inspect.trans (hunit.trans
      (and_iff_left (succeeds_put.2 (succeeds_stage _ _ _))))
  · refine succeeds_check.trans (exists_congr fun config => ?_)
    simp only [exists_and_left, Repo.addedManifest]
    refine and_congr_right fun _ => ?_
    split_ifs with hlong
    · exact succeeds_addChunked
    · refine succeeds_inspect.trans (exists_congr fun m => and_congr_right fun _ => ?_)
      exact succeeds_put.trans succeeds_stageManifest

theorem stage_eq_ok {path : Text} {hash : Hash} {α : Type} {b res : α} {r r' : Repo}
    (h : ((stage path hash >>= fun _ => pure b).run (Action.op W)).run r = (.ok res, r')) :
    r' = { r with index := r.index.insert path ⟨path, .upsert, some hash⟩ } := by
  cases saveIndex_eq_ok.1 (loadIndex_eq_ok.1 h)
  rfl

/-- A manifest that is staged. -/
theorem staging_of_stageManifest {path : Text} {m : Manifest} {sourceHash : Hash} {r r' : Repo}
    {res : AddResult} (h : ((Repo.stageManifest W path m sourceHash).run (Action.op W)).run r =
      (.ok res, r')) :
    ∃ bytes, m.serialize W = .ok bytes ∧ r' = r.staging W path .manifest bytes := by
  obtain ⟨bytes, hbytes, h⟩ := require_eq_ok.1 h
  exact ⟨bytes, hbytes, stage_eq_ok (put_eq_ok.1 h)⟩

/-- A long file that is added. -/
theorem staged_of_addChunked {chunkSize : Nat} {res : AddResult} {r' : Repo}
    (h : ((Repo.addChunked W env req chunkSize).run (Action.op W)).run r = (.ok res, r')) :
    ∃ m bytes, (r.withChunks W chunkSize req.bytes).buildManifestWith W env req.path []
        (req.userFields.getD ∅) req.fileTypeOverride
        (some (chunkedIngest W chunkSize req.bytes)) = .ok m ∧
      m.serialize W = .ok bytes ∧
      r' = (r.withChunks W chunkSize req.bytes).staging W req.path .manifest bytes := by
  -- the pieces and their list are stored before the manifest is built
  obtain ⟨entries, s, hslices, h⟩ := objects_eq_ok.1 h
  rw [Repo.run_putSlices] at hslices
  cases hslices
  obtain ⟨m, hm, h⟩ := inspect_eq_ok.1 (put_eq_ok.1 h)
  obtain ⟨bytes, hbytes, hr'⟩ := staging_of_stageManifest h
  exact ⟨m, bytes, hm, hbytes, hr'⟩

/-- **What `add` stages when it succeeds.** -/
theorem staged_of_add {res : AddResult} {r' : Repo}
    (h : ((Repo.add W env req).run (Action.op W)).run r = (.ok res, r')) :
    Repo.Staged W env req r r' := by
  obtain ⟨-, -, h⟩ := require_eq_ok.1 h
  obtain ⟨-, -, h⟩ := check_eq_ok.1 h
  unfold Repo.Staged
  split_ifs at h ⊢ with hblob
  · obtain ⟨-, -, h⟩ := inspect_eq_ok.1 h
    exact stage_eq_ok (put_eq_ok.1 h)
  · obtain ⟨config, hconfig, h⟩ := check_eq_ok.1 h
    refine ⟨config, ?_⟩
    unfold Repo.addedManifest Repo.withContent
    split_ifs at h ⊢ with hlong
    · obtain ⟨m, bytes, hm, hbytes, hr'⟩ := staged_of_addChunked h
      exact ⟨m, bytes, hconfig, hm, hbytes, hr'⟩
    · obtain ⟨m, hm, h⟩ := inspect_eq_ok.1 h
      obtain ⟨bytes, hbytes, hr'⟩ := staging_of_stageManifest (put_eq_ok.1 h)
      exact ⟨m, bytes, hconfig, hm, hbytes, hr'⟩

/-- The index is the same. -/
def SameIndex (r r' : Repo) : Prop := r'.index = r.index

instance : Std.Refl SameIndex := ⟨fun _ => rfl⟩

instance : IsTrans Repo SameIndex := ⟨fun _ _ _ h₁ h₂ => h₂.trans h₁⟩

/-- **Staging that fails leaves the index as it was.** -/
theorem index_of_error {α : Type} {t : RepoScript α} (ht : Repo.Stages t) {e : Fault OmpError}
    {r' : Repo} (h : (t.run (Action.op W)).run r = (.error e, r')) : r'.index = r.index := by
  refine ht.keeps_of_error (R := SameIndex) ?_ ?_ (fun hx => hx.elim) h
  · intro β x hx s
    cases x with
    | look _ | objects _ | loadIndex | lockRefs => exact Std.Refl.refl _
    | writeRef _ _ | writeHead _ | saveIndex _ => exact hx.elim
  · -- the index itself is written
    intro β x hx s s' e h
    cases x with
    | saveIndex idx => cases h
    | look _ | objects _ | loadIndex | lockRefs | writeRef _ _ | writeHead _ => exact hx.elim

/-- Under the lock, what fails and leaves the index does so, as does what is locked out. -/
theorem locked_of_error {α : Type} {x : RepoOp α} (h : r.poisoned = false →
    ∃ e r', x.run r = (.error e, r') ∧ r'.index = r.index) :
    ∃ e r', (Repo.locked x).run r = (.error e, r') ∧ r'.index = r.index := by
  cases hp : r.poisoned with
  | true => exact ⟨.panic, r, if_pos hp, rfl⟩
  | false =>
    obtain ⟨e, r', hx, hindex⟩ := h hp
    have hrun : (Repo.locked x).run r = (.error e, if e = .panic then { r' with poisoned := true }
        else r') := by
      rw [Repo.locked]
      simp only [hp, hx]
      cases e <;> rfl
    refine ⟨e, _, hrun, ?_⟩
    split_ifs
    · exact hindex
    · exact hindex

/-! ### Replies -/

variable {tr : TenantRepo} {form : Form} {mp : Multipart}

variable (W env tr) in
/-- **A form is refused**: the tenant is encrypted, a panic poisoned the lock, a part is missing, or
a check of `add` fails. -/
def Refused (form : Form) (r : Repo) : Prop :=
  tr.encryptionMode.isEncrypted = true ∨ r.poisoned = true ∨
    ∀ path bytes, form.path = some path → form.file = some bytes →
      ¬r.Accepts W env ⟨path, bytes, some form.fields, form.fileType⟩

theorem isError_toResponse (e : OmpError) : (Response.toResponse e : Response J).IsError := by
  intro status h
  obtain rfl : e.code.httpStatus = status := Option.some.inj h
  cases e.code <;> decide

/-- The reply to an encrypted tenant. -/
theorem posted_encrypted (h : tr.encryptionMode.isEncrypted = true) (form : Form) (r : Repo) :
    posted W tr env form r =
      ((Response.modeMismatch "POST /files".toList : Response J), r) := by
  rw [posted, serve, quietly, postFile, requirePlaintextMode, if_pos h]
  rfl

/-- The reply to a form without a path or a file. -/
theorem posted_incomplete (h : ¬tr.encryptionMode.isEncrypted = true)
    (hform : form.path = none ∨ form.file = none) (r : Repo) :
    ∃ e, posted W tr env form r = ((Response.toResponse e : Response J), r) := by
  obtain ⟨path, file, fileType, fields, schema⟩ := form
  rw [posted, serve, quietly, postFile, requirePlaintextMode, if_neg h]
  cases path with
  | none => exact ⟨_, rfl⟩
  | some path =>
    obtain rfl : file = none := hform.resolve_left nofun
    exact ⟨_, rfl⟩

/-- The reply to what `add` yields. -/
def addReply : Except (Fault OmpError) AddResult × Repo → Response J × Repo
  | (.ok res, r') => (.json 200 (.added res), r')
  | (.error (.err e), r') => (.toResponse e, r')
  | (.error .panic, r') => (.closed, r')

/-- The reply to a form with both is that of `add`. -/
theorem posted_complete (h : ¬tr.encryptionMode.isEncrypted = true) {path : Text} {bytes : Bytes}
    (hpath : form.path = some path) (hfile : form.file = some bytes) (r : Repo) :
    posted (J := J) W tr env form r = addReply
      ((Repo.under W (Repo.add W env ⟨path, bytes, some form.fields, form.fileType⟩)).run r) := by
  obtain ⟨_, _, fileType, fields, schema⟩ := form
  cases hpath
  cases hfile
  rw [posted, serve, quietly, postFile, requirePlaintextMode, if_neg h]
  simp only [Form.pathAndFile, Op.run_bind, Op.run_pure]
  generalize (Repo.under W (Repo.add W env ⟨path, bytes, some fields, fileType⟩)).run r = res
  obtain ⟨(_ | _) | _, r'⟩ := res <;> rfl

/-- **A form that is refused is answered with an error**, and changes nothing. -/
theorem posted_of_refused (h : Refused W env tr form r) :
    (posted (J := J) W tr env form r).1.IsError ∧
      (posted (J := J) W tr env form r).2.index = r.index := by
  by_cases hmode : tr.encryptionMode.isEncrypted = true
  · rw [posted_encrypted hmode]
    refine ⟨fun status hstatus => ?_, rfl⟩
    cases hstatus
    decide
  by_cases hform : form.path = none ∨ form.file = none
  · obtain ⟨e, he⟩ : ∃ e, posted W tr env form r = ((Response.toResponse e : Response J), r) :=
      posted_incomplete hmode hform r
    rw [he]
    exact ⟨isError_toResponse e, rfl⟩
  · obtain ⟨hpath, hfile⟩ := not_or.1 hform
    obtain ⟨path, hpath⟩ := Option.ne_none_iff_exists'.1 hpath
    obtain ⟨bytes, hfile⟩ := Option.ne_none_iff_exists'.1 hfile
    rw [posted_complete hmode hpath hfile]
    obtain ⟨e, r', hrun, hindex⟩ := locked_of_error (x := (Repo.add W env
      ⟨path, bytes, some form.fields, form.fileType⟩).run (Action.op W)) (r := r) fun hsound => by
        have hrefused := (h.resolve_left hmode).resolve_left (Bool.eq_false_iff.1 hsound)
        cases hadd : ((Repo.add W env ⟨path, bytes, some form.fields, form.fileType⟩).run
            (Action.op W)).run r with
        | mk res r' =>
          cases res with
          | ok res => exact (hrefused path bytes hpath hfile (succeeds_add.1 ⟨res, r', hadd⟩)).elim
          | error e => exact ⟨e, r', rfl, index_of_error (Repo.stages_add env _) hadd⟩
    rw [Repo.under, hrun]
    cases e with
    | err e => exact ⟨isError_toResponse e, hindex⟩
    | panic => exact ⟨nofun, hindex⟩

/-- **A form that is not refused is added.** -/
theorem stored_of_not_refused (h : ¬Refused W env tr form r) :
    Stored (J := J) W env form r (posted W tr env form r) := by
  obtain ⟨hmode, hrest⟩ := not_or.1 h
  obtain ⟨hsound, hrest⟩ := not_or.1 hrest
  simp only [not_forall, not_not] at hrest
  obtain ⟨path, bytes, hpath, hfile, haccepts⟩ := hrest
  obtain ⟨res, r', hrun⟩ := succeeds_add.2 haccepts
  have hlocked := Repo.locked_eq_ok.2 ⟨Bool.eq_false_iff.2 hsound, hrun⟩
  rw [posted_complete hmode hpath hfile, Repo.under, hlocked]
  exact ⟨path, bytes, res, hpath, hfile, rfl, staged_of_add hrun⟩

/-- What is added is not answered with an error. -/
theorem Stored.not_isError {res : Response J × Repo} (h : Stored W env form r res) :
    ¬res.1.IsError := by
  obtain ⟨-, -, added, -, -, hreply, -⟩ := h
  intro herror
  rw [hreply] at herror
  exact absurd (herror 200 rfl) (by decide)

/-! ### Whole bodies -/

theorem last_cons {α : Type} (get : NextField → Option α) (x : NextField) (mp : Multipart) :
    Multipart.last get (x :: mp) = (Multipart.last get mp).or (get x) := by
  rw [Multipart.last, List.reverse_cons, List.findSome?_append, List.findSome?_singleton]
  rfl

theorem getLast?_bracket (p key : Text) : (p ++ (key ++ [']'])).getLast? = some ']' := by
  rw [← List.append_assoc, List.getLast?_concat]

theorem drop_bracket {p : Text} {n : Nat} (h : p.length = n) (key : Text) :
    ((p ++ (key ++ [']'])).drop n).dropLast = key := by
  rw [List.drop_left' h, List.dropLast_concat]

theorem isFieldName_fieldName (key : Text) : isFieldName (fieldName key) = true := by
  have hstart : "fields[".toList.isPrefixOf (fieldName key) = true :=
    List.isPrefixOf_iff_prefix.2 (List.prefix_append _ _)
  have hend : (fieldName key).getLast? = some ']' := getLast?_bracket _ key
  rw [isFieldName, hstart, hend]
  decide

theorem fieldKey_fieldName (key : Text) : fieldKey (fieldName key) = key :=
  drop_bracket (by decide +kernel) key

/-- What ends in a bracket. -/
theorem exists_bracket {p rest : Text} (hp : p.getLast? ≠ some ']')
    (h : (p ++ rest).getLast? = some ']') : ∃ key, rest = key ++ [']'] := by
  rcases List.eq_nil_or_concat' rest with rfl | ⟨key, c, rfl⟩
  · rw [List.append_nil] at h
    exact absurd h hp
  · rw [← List.append_assoc, List.getLast?_concat] at h
    exact ⟨key, by rw [Option.some.inj h]⟩

/-- The names of fields are those with a key. -/
theorem eq_fieldName {n : Text} (h : isFieldName n = true) : n = fieldName (fieldKey n) := by
  obtain ⟨hstart, hend⟩ := Bool.and_eq_true_iff.1 h
  obtain ⟨rest, hrest⟩ := List.isPrefixOf_iff_prefix.1 hstart
  obtain ⟨key, rfl⟩ := exists_bracket (by decide +kernel) (hrest ▸ beq_iff_eq.1 hend)
  obtain rfl : fieldName key = n := hrest
  rw [fieldKey_fieldName]

/-- No other name is that of a field. -/
theorem fieldName_ne {n : Text} (hn : isFieldName n = false) (key : Text) : n ≠ fieldName key := by
  rintro rfl
  cases hn.symm.trans (isFieldName_fieldName key)

/-- **What texts and files add to a form**: they count before what was read. -/
structure Adds (text : Text → Option Text) (file : Text → Option Bytes) (form form' : Form) :
    Prop where
  path : form'.path = (text "path".toList).or form.path
  file : form'.file = (file "file".toList).or form.file
  fileType : form'.fileType = (text "file_type".toList).or form.fileType
  fields : ∀ key, form'.fields[key]? = ((text (fieldName key)).map parseScalar).or form.fields[key]?

theorem Adds.trans {text text' : Text → Option Text} {file file' : Text → Option Bytes}
    {form₁ form₂ form₃ : Form} (h : Adds text file form₁ form₂) (h' : Adds text' file' form₂ form₃) :
    Adds (fun n => (text' n).or (text n)) (fun n => (file' n).or (file n)) form₁ form₃ where
  path := by rw [h'.path, h.path, Option.or_assoc]
  file := by rw [h'.file, h.file, Option.or_assoc]
  fileType := by rw [h'.fileType, h.fileType, Option.or_assoc]
  fields key := by rw [h'.fields, h.fields, Option.map_or, Option.or_assoc]

/-- A part that is read adds what it holds. -/
theorem adds_absorb {p : Part} (h : Multipart.succeeds (.part p) = true) (form : Form) :
    Adds (fun n => Multipart.textOf n (.part p)) (fun n => Multipart.bytesOf n (.part p)) form
      (form.absorb p) := by
  obtain ⟨name, text, bytes⟩ := p
  change (if Multipart.isText (name.getD []) = true then text.isSome else bytes.isSome) = true at h
  generalize hn : name.getD [] = n at h
  have htextOf (m : Text) : Multipart.textOf m (.part ⟨name, text, bytes⟩) =
      if n = m then text else none := by rw [← hn]; rfl
  have hbytesOf (m : Text) : Multipart.bytesOf m (.part ⟨name, text, bytes⟩) =
      if n = m then bytes else none := by rw [← hn]; rfl
  have hpath : isFieldName "path".toList = false := by decide +kernel
  have hfile : isFieldName "file".toList = false := by decide +kernel
  have htype : isFieldName "file_type".toList = false := by decide +kernel
  have hpathfile : "path".toList ≠ "file".toList := by decide +kernel
  have hpathtype : "path".toList ≠ "file_type".toList := by decide +kernel
  have hfiletype : "file".toList ≠ "file_type".toList := by decide +kernel
  unfold Form.absorb
  simp only [hn]
  split_ifs with h₁ h₂ h₃ h₄
  · subst h₁
    obtain ⟨t, rfl⟩ := Option.isSome_iff_exists.1 ((if_pos (by decide +kernel)).symm.trans h)
    refine ⟨?_, ?_, ?_, fun key => ?_⟩
    · rw [htextOf, if_pos rfl]; rfl
    · rw [hbytesOf, if_neg hpathfile]; rfl
    · rw [htextOf, if_neg hpathtype]; rfl
    · rw [htextOf, if_neg (fieldName_ne hpath key)]; rfl
  · subst h₂
    obtain ⟨bs, rfl⟩ := Option.isSome_iff_exists.1 ((if_neg (by decide +kernel)).symm.trans h)
    refine ⟨?_, ?_, ?_, fun key => ?_⟩
    · rw [htextOf, if_neg hpathfile.symm]; rfl
    · rw [hbytesOf, if_pos rfl]; rfl
    · rw [htextOf, if_neg hfiletype]; rfl
    · rw [htextOf, if_neg (fieldName_ne hfile key)]; rfl
  · subst h₃
    obtain ⟨t, rfl⟩ := Option.isSome_iff_exists.1 ((if_pos (by decide +kernel)).symm.trans h)
    refine ⟨?_, ?_, ?_, fun key => ?_⟩
    · rw [htextOf, if_neg hpathtype.symm]; rfl
    · rw [hbytesOf, if_neg hfiletype.symm]; rfl
    · rw [htextOf, if_pos rfl]; rfl
    · rw [htextOf, if_neg (fieldName_ne htype key)]; rfl
  · have htext : Multipart.isText n = true := by rw [Multipart.isText, h₄, Bool.or_true]
    obtain ⟨t, rfl⟩ := Option.isSome_iff_exists.1 ((if_pos htext).symm.trans h)
    refine ⟨?_, ?_, ?_, fun key => ?_⟩
    · rw [htextOf, if_neg h₁]; rfl
    · rw [hbytesOf, if_neg h₂]; rfl
    · rw [htextOf, if_neg h₃]; rfl
    · rw [htextOf, TextMap.getElem?_insert]
      by_cases hkey : n = fieldName key
      · rw [if_pos hkey, if_pos (hkey ▸ fieldKey_fieldName key)]
        rfl
      · have hkey' : fieldKey n ≠ key := fun heq => hkey (heq ▸ eq_fieldName h₄)
        rw [if_neg hkey, if_neg hkey']
        rfl
  · refine ⟨?_, ?_, ?_, fun key => ?_⟩
    · rw [htextOf, if_neg h₁]; rfl
    · rw [hbytesOf, if_neg h₂]; rfl
    · rw [htextOf, if_neg h₃]; rfl
    · rw [htextOf, if_neg (fieldName_ne (Bool.eq_false_iff.2 h₄) key)]; rfl

/-- The parts of a whole body add what they hold, the last one first. -/
theorem adds_read (h : mp.Whole) (form : Form) :
    Adds (fun n => mp.last (Multipart.textOf n)) (fun n => mp.last (Multipart.bytesOf n)) form
      (form.read mp) := by
  induction mp generalizing form with
  | nil => exact ⟨rfl, rfl, rfl, fun _ => rfl⟩
  | cons x mp ih =>
    obtain ⟨hx, hmp⟩ := List.forall_mem_cons.1 h
    cases x with
    | broken => cases hx
    | part p =>
      simp only [last_cons]
      exact (adds_absorb hx form).trans (ih hmp _)

/-- **What is read of a whole body is what was sent.** -/
theorem sent_read (h : mp.Whole) : Sent mp (Form.empty.read mp) := by
  obtain ⟨hpath, hfile, htype, hfields⟩ := adds_read h .empty
  refine ⟨hpath.trans (Option.or_none ..), hfile.trans (Option.or_none ..),
    htype.trans (Option.or_none ..), fun key => (hfields key).trans ?_⟩
  exact Option.or_none ..

/-- **A body is added as it was sent, or refused, exactly when no read fails, or what was read
before, with nothing in the place of a text or a file that failed, is refused.** -/
theorem honest_iff (tr : TenantRepo) (env : Env) (mp : Multipart) (r : Repo) :
    Honest (J := J) W tr env mp r ↔ mp.Whole ∨ Refused W env tr (Form.empty.read mp) r := by
  constructor
  · rintro (⟨hwhole, -⟩ | ⟨herror, -⟩)
    · exact .inl hwhole
    · refine .inr (by_contra fun h => ?_)
      exact (stored_of_not_refused h).not_isError herror
  · intro h
    by_cases hrefused : Refused W env tr (Form.empty.read mp) r
    · exact .inr (posted_of_refused hrefused)
    · have hwhole := h.resolve_right hrefused
      exact .inl ⟨hwhole, _, sent_read hwhole, stored_of_not_refused hrefused⟩

/-- A path, and a file of which no byte arrives. -/
def cutBody : Multipart :=
  [.part ⟨some "path".toList, some "probes/a/b/c.wasm".toList, none⟩,
    .part ⟨some "file".toList, none, none⟩]

/-- **A file that is cut is added, without its bytes.** -/
theorem cut_file_added : ¬∀ (tr : TenantRepo) (env : Env) (mp : Multipart) (r : Repo),
    Honest (J := Unit) (demoWorld ⟨[], [], []⟩) tr env mp r := by
  intro h
  have hcut : ¬cutBody.Whole := fun hwhole =>
    absurd (hwhole _ (List.mem_cons_of_mem _ List.mem_cons_self)) (by decide +kernel)
  have hreply : (postMultipart (J := Unit) (demoWorld ⟨[], [], []⟩)
      ⟨[], .unlimited, .plaintext⟩ demoEnv cutBody .init).1.status = some 200 := by
    decide +kernel
  rcases h ⟨[], .unlimited, .plaintext⟩ demoEnv cutBody .init with ⟨hwhole, -⟩ | ⟨herror, -⟩
  · exact hcut hwhole
  · exact absurd (herror 200 hreply) (by decide)

end Omp
