import Omp.Lib.Broadcast
import Omp.Lib.Text
import Omp.Lib.Unwinding

/-!
# Build jobs

The builder keeps its jobs in a table, under ids that it draws.  A job belongs to the tenant that
submitted it.  The log of a job is kept in a buffer, and each line is sent on a channel too; who
reads a log is given the buffer, and then what comes on the channel.

The table is under a lock, so that each call is one step.  Jobs are updated by closures that set the
state, the artifacts and the error.

## Main definitions

* `Job`, `JobsTable`, `Subscriber` : the table, and who reads logs.
* `JobsTable.step` : the calls, and what they answer.
* `JobCall.Fresh` : an id is drawn that was not drawn before.
* `appended` : the lines of a job.

## Main results

* `JobsTable.Inv.step` : what each call keeps.
* `JobsTable.Inv.delivered_step` : a subscriber that keeps up is given each line once.
* `JobsTable.isolated_and_delivered` : tenants are isolated, and logs are delivered, in every run.
-/

namespace Omp

open Lib Broadcast

/-! ### The table -/

/-- The state of a job. -/
inductive JobState where
  | queued | building | ok | failed | cancelled

/-- Build artifact ready for the client to stage at the named path. -/
structure Artifact where
  path : Text
  bytesB64 : Text

/-- What a closure that is given to `update` sets. -/
structure BuildProgress where
  state : JobState
  artifacts : Option (List Artifact)
  error : Option Text

/-- The record of a build. -/
structure Job extends BuildProgress where
  tenant : Text
  ns : Text
  name : Text
  createdAt : Text
  updatedAt : Text
  /-- Buffered log lines so a late subscriber can replay from the start. -/
  logBuffer : List Text

/-- What is shown of a job. -/
structure JobView extends BuildProgress where
  id : Text
  tenant : Text
  ns : Text
  name : Text
  createdAt : Text
  updatedAt : Text

/-- `Job::view`. -/
def Job.view (job : Job) (id : Text) : JobView :=
  { job with id := id }

/-- Who reads a log: what was in the buffer, the position on the channel, and what came on it. -/
structure Subscriber where
  job : Text
  replay : List Text
  next : Nat
  received : List (Received Text)

/-- The lines that came on the channel. -/
def Subscriber.lines (x : Subscriber) : List Text := x.received.flatMap Received.line

/-- The table, the channels of all jobs there were, and who reads logs. -/
structure JobsTable where
  jobs : TextMap Job
  channels : TextMap (Channel Text)
  subscribers : List Subscriber

/-- The capacity of a channel. -/
def logCapacity : Nat := 256

namespace JobsTable

/-- A table without jobs. -/
def new : JobsTable := ⟨∅, ∅, []⟩

/-- The channel of a job. -/
def channel (s : JobsTable) (id : Text) : Channel Text := s.channels[id]?.getD .new

/-- `create`, with the id that is drawn. -/
def create (s : JobsTable) (id tenant ns name now : Text) : JobsTable :=
  { s with
    jobs := s.jobs.insert id ⟨⟨.queued, none, none⟩, tenant, ns, name, now, now, []⟩
    channels := s.channels.insert id .new }

/-- `view`. -/
def view (s : JobsTable) (id tenant : Text) : Option JobView := do
  let job ← s.jobs[id]?
  if job.tenant ≠ tenant then none else some (job.view id)

/-- `update`. -/
def update (s : JobsTable) (id : Text) (f : BuildProgress → BuildProgress) (now : Text) :
    JobsTable :=
  match s.jobs[id]? with
  | none => s
  | some job =>
    let job := { job with toBuildProgress := f job.toBuildProgress, updatedAt := now }
    { s with jobs := s.jobs.insert id job }

/-- `append_log`. -/
def appendLog (s : JobsTable) (id line : Text) : JobsTable :=
  match s.jobs[id]? with
  | none => s
  | some job =>
    let job := { job with logBuffer := job.logBuffer ++ [line] }
    let sent := (s.channel id).send logCapacity line
    { s with jobs := s.jobs.insert id job, channels := s.channels.insert id sent }

/-- `subscribe_log` : the buffer, and a receiver at the end of the channel. -/
def subscribeLog (s : JobsTable) (id tenant : Text) : Option (List Text × Nat) := do
  let job ← s.jobs[id]?
  if job.tenant ≠ tenant then none
  else some (job.logBuffer, (s.channel id).tail)

/-- `delete`. -/
def delete (s : JobsTable) (id tenant : Text) : Bool × JobsTable :=
  match s.jobs[id]? with
  | none => (false, s)
  | some job =>
    if job.tenant ≠ tenant then (false, s) else (true, { s with jobs := s.jobs.erase id })

/-- A receiver is given what comes next on its channel. -/
def recv (s : JobsTable) (k : Nat) : Option (Received Text) × JobsTable :=
  match s.subscribers[k]? with
  | none => (none, s)
  | some x =>
    let (r, next) := (s.channel x.job).recv x.next
    (some r, { s with subscribers :=
      s.subscribers.set k { x with next := next, received := x.received ++ [r] } })

end JobsTable

/-- A call. -/
inductive JobCall where
  | create (id tenant ns name now : Text)
  | appendLog (id line : Text)
  | update (id : Text) (f : BuildProgress → BuildProgress) (now : Text)
  | subscribeLog (id tenant : Text)
  | view (id tenant : Text)
  | delete (id tenant : Text)
  /-- A subscriber receives from its channel. -/
  | recv (k : Nat)

/-- What a call answers. -/
inductive JobAnswer where
  | created (id : Text)
  | done
  | log (replay : Option (List Text))
  | view (v : Option JobView)
  | deleted (b : Bool)
  | received (r : Option (Received Text))

/-- The tenant a call is made with. -/
def JobCall.tenant? : JobCall → Option Text
  | create _ tenant .. | subscribeLog _ tenant | view _ tenant | delete _ tenant => some tenant
  | _ => none

/-- A job is created, for a tenant. -/
def JobCall.Creates (id tenant : Text) (c : JobCall) : Prop :=
  ∃ ns name now, c = .create id tenant ns name now

/-- **The calls.** -/
def JobsTable.step (s : JobsTable) : JobCall → JobsTable × JobAnswer
  | .create id tenant ns name now => (s.create id tenant ns name now, .created id)
  | .appendLog id line => (s.appendLog id line, .done)
  | .update id f now => (s.update id f now, .done)
  | .subscribeLog id tenant => match s.subscribeLog id tenant with
    | none => (s, .log none)
    | some (replay, next) =>
      ({ s with subscribers := s.subscribers ++ [⟨id, replay, next, []⟩] }, .log (some replay))
  | .view id tenant => (s, .view (s.view id tenant))
  | .delete id tenant => let (b, s) := s.delete id tenant; (s, .deleted b)
  | .recv k => let (r, s) := s.recv k; (s, .received r)

/-- The table, call by call. -/
def jobsTable : Reactor JobsTable JobCall JobAnswer where
  step s c := ((s.step c).1, some (s.step c).2)

/-- The id that is drawn for a job was not drawn for another. -/
def JobCall.Fresh (s : JobsTable) : JobCall → Prop
  | create id .. => id ∉ s.channels
  | _ => True

/-- The line a call appends to the log of a job. -/
def JobsTable.lineOf (s : JobsTable) (id : Text) : JobCall → List Text
  | .appendLog id' line => if id' = id ∧ id ∈ s.jobs then [line] else []
  | _ => []

/-- **The lines that are appended to a job** in a run. -/
def appended (id : Text) : JobsTable → List JobCall → List Text
  | _, [] => []
  | s, c :: cs => s.lineOf id c ++ appended id (s.step c).1 cs

/-- How many lines a subscriber is behind. -/
def JobsTable.behind (s : JobsTable) (x : Subscriber) : Nat :=
  (s.channel x.job).tail - x.next

/-- The table without a job. -/
def JobsTable.without (s : JobsTable) (id : Text) : JobsTable := { s with jobs := s.jobs.erase id }

/-- The lines that a subscriber has before it on its channel. -/
def JobsTable.unread (s : JobsTable) (x : Subscriber) : List Text :=
  (s.channel x.job).unread x.next

/-! ### What each call keeps -/

namespace JobsTable

variable {s : JobsTable} {id : Text} {c : JobCall}

/-- The lines so far are in the buffer of each job, and were sent on its channel. -/
structure Inv (s : JobsTable) (lines : Text → List Text) : Prop where
  buffer : ∀ id job, s.jobs[id]? = some job → job.logBuffer = lines id
  opened : ∀ id job, s.jobs[id]? = some job → id ∈ s.channels
  holds : ∀ id, (s.channel id).Holds logCapacity (lines id)

theorem channel_insert (s : JobsTable) (jobs : TextMap Job) (xs : List Subscriber)
    (id id' : Text) (ch : Channel Text) :
    channel ⟨jobs, s.channels.insert id ch, xs⟩ id' = if id = id' then ch else s.channel id' := by
  unfold channel
  dsimp only
  rw [TextMap.getElem?_insert]
  split_ifs <;> rfl

theorem Inv.new : Inv new fun _ => [] where
  buffer id job h := by
    rw [JobsTable.new, Std.ExtTreeMap.getElem?_empty] at h
    cases h
  opened id job h := by
    rw [JobsTable.new, Std.ExtTreeMap.getElem?_empty] at h
    cases h
  holds id := by
    rw [channel, JobsTable.new, Std.ExtTreeMap.getElem?_empty]
    exact .new _

section

variable {lines : Text → List Text} (h : Inv s lines)

include h

/-- There are no lines for an id that was not drawn. -/
theorem Inv.lines_eq_nil (hid : id ∉ s.channels) : lines id = [] := by
  have htail := (h.holds id).tail
  rw [channel, Std.ExtTreeMap.getElem?_eq_none hid] at htail
  exact List.eq_nil_of_length_eq_zero htail.symm

/-- The subscribers do not matter. -/
theorem Inv.congr {t : JobsTable} (hjobs : t.jobs = s.jobs) (hchannels : t.channels = s.channels) :
    Inv t lines where
  buffer id job hjob := h.buffer id job (hjobs ▸ hjob)
  opened id job hjob := hchannels ▸ h.opened id job (hjobs ▸ hjob)
  holds id := by
    rw [channel, hchannels]
    exact h.holds id

theorem Inv.create (hid : id ∉ s.channels) (tenant ns name now : Text) :
    Inv (s.create id tenant ns name now) lines where
  buffer id' job hjob := by
    rw [JobsTable.create, TextMap.getElem?_insert] at hjob
    split_ifs at hjob with heq
    · cases hjob
      exact (h.lines_eq_nil (heq ▸ hid)).symm
    · exact h.buffer id' job hjob
  opened id' job hjob := by
    rw [JobsTable.create, TextMap.getElem?_insert] at hjob
    rw [JobsTable.create, Std.ExtTreeMap.mem_insert]
    split_ifs at hjob with heq
    · exact .inl (Std.compare_eq_iff_eq.2 heq)
    · exact .inr (h.opened id' job hjob)
  holds id' := by
    rw [JobsTable.create, channel_insert]
    split_ifs with heq
    · rw [← heq, h.lines_eq_nil hid]
      exact .new _
    · exact h.holds id'

theorem Inv.update (f : BuildProgress → BuildProgress) (now : Text) :
    Inv (s.update id f now) lines := by
  unfold JobsTable.update
  cases hget : s.jobs[id]? with
  | none => exact h
  | some old =>
    refine ⟨fun id' job hjob => ?_, fun id' job hjob => ?_, h.holds⟩ <;>
      rw [TextMap.getElem?_insert] at hjob <;> split_ifs at hjob with heq
    · cases hjob
      exact heq ▸ h.buffer id old hget
    · exact h.buffer id' job hjob
    · exact heq ▸ h.opened id old hget
    · exact h.opened id' job hjob

theorem Inv.delete (tenant : Text) : Inv (s.delete id tenant).2 lines := by
  unfold JobsTable.delete
  cases hget : s.jobs[id]? with
  | none => exact h
  | some old =>
    dsimp only
    split_ifs
    · exact h
    · refine ⟨fun id' job hjob => ?_, fun id' job hjob => ?_, h.holds⟩ <;>
        rw [TextMap.getElem?_erase] at hjob <;> split_ifs at hjob
      · exact h.buffer id' job hjob
      · exact h.opened id' job hjob

/-- The line is in the buffer of the job and on its channel; without the job it is nowhere. -/
theorem Inv.appendLog (line : Text) : Inv (s.appendLog id line)
    fun id' => lines id' ++ s.lineOf id' (.appendLog id line) := by
  unfold JobsTable.appendLog lineOf
  dsimp only
  cases hget : s.jobs[id]? with
  | none =>
    have hnone : ∀ id', ¬(id = id' ∧ id' ∈ s.jobs) := by
      rintro _ ⟨rfl, hmem⟩
      rw [Std.ExtTreeMap.mem_iff_isSome_getElem?, hget] at hmem
      cases hmem
    simpa only [hnone, if_false, List.append_nil] using h
  | some old =>
    have hmem : id ∈ s.jobs := by rw [Std.ExtTreeMap.mem_iff_isSome_getElem?, hget]; rfl
    have hline : ∀ id', id = id' ∧ id' ∈ s.jobs ↔ id = id' :=
      fun id' => ⟨And.left, fun heq => ⟨heq, heq ▸ hmem⟩⟩
    simp only [hline]
    refine ⟨fun id' job hjob => ?_, fun id' job hjob => ?_, fun id' => ?_⟩
    · rw [TextMap.getElem?_insert] at hjob
      split_ifs at hjob ⊢ with heq
      · cases hjob
        exact heq ▸ congrArg (· ++ [line]) (h.buffer id old hget)
      · exact (h.buffer id' job hjob).trans (List.append_nil _).symm
    · rw [TextMap.getElem?_insert] at hjob
      rw [Std.ExtTreeMap.mem_insert]
      split_ifs at hjob with heq
      · exact .inl (Std.compare_eq_iff_eq.2 heq)
      · exact .inr (h.opened id' job hjob)
    · rw [channel_insert]
      split_ifs with heq
      · exact heq ▸ (h.holds id).send line
      · exact (List.append_nil (lines id')).symm ▸ h.holds id'

/-- **The buffers and the channels** after a call. -/
theorem Inv.step (hc : c.Fresh s) : Inv (s.step c).1 fun id => lines id ++ s.lineOf id c := by
  cases c with
  | appendLog id line => exact h.appendLog line
  | create id tenant ns name now =>
    simp only [lineOf, List.append_nil]
    exact h.create hc ..
  | update id f now =>
    simp only [lineOf, List.append_nil]
    exact h.update f now
  | delete id tenant =>
    simp only [lineOf, List.append_nil]
    exact h.delete tenant
  | view id tenant =>
    simp only [lineOf, List.append_nil]
    exact h
  | subscribeLog id tenant =>
    simp only [lineOf, List.append_nil, JobsTable.step]
    split
    · exact h
    · exact h.congr rfl rfl
  | recv k =>
    simp only [lineOf, List.append_nil, JobsTable.step, JobsTable.recv]
    split
    · exact h
    · exact h.congr rfl rfl

end

/-- **The subscribers after a call**: those there were, one that starts, or one that receives. -/
theorem subscribers_step {k : Nat} {x : Subscriber} (h : (s.step c).1.subscribers[k]? = some x) :
    s.subscribers[k]? = some x ∨
    (∃ id job, s.jobs[id]? = some job ∧ x = ⟨id, job.logBuffer, (s.channel id).tail, []⟩) ∨
    ∃ y r next, s.subscribers[k]? = some y ∧ (s.channel y.job).recv y.next = (r, next) ∧
      x = { y with next := next, received := y.received ++ [r] } := by
  cases c with
  | create id tenant ns name now => exact .inl h
  | view id tenant => exact .inl h
  | appendLog id line =>
    simp only [step, JobsTable.appendLog] at h
    split at h <;> exact .inl h
  | update id f now =>
    simp only [step, JobsTable.update] at h
    split at h <;> exact .inl h
  | delete id tenant =>
    simp only [step, JobsTable.delete] at h
    split at h
    · exact .inl h
    · split_ifs at h <;> exact .inl h
  | subscribeLog id tenant =>
    simp only [step, JobsTable.subscribeLog] at h
    cases hget : s.jobs[id]? with
    | none => rw [hget] at h; exact .inl h
    | some job =>
      rw [hget, Option.bind_eq_bind, Option.bind_some] at h
      split_ifs at h
      · exact .inl h
      · dsimp only at h
        rw [List.getElem?_append] at h
        split_ifs at h
        · exact .inl h
        · exact .inr (.inl ⟨id, job, hget, List.mem_singleton.1 (List.mem_of_getElem? h)⟩)
  | recv j =>
    simp only [step, JobsTable.recv] at h
    cases hget : s.subscribers[j]? with
    | none => rw [hget] at h; exact .inl h
    | some y =>
      rw [hget] at h
      dsimp only at h
      rw [List.getElem?_set] at h
      split_ifs at h with heq
      · exact .inr (.inr ⟨y, _, _, heq ▸ hget, rfl, (Option.some.inj h).symm⟩)
      · exact .inl h

/-- The ids that were drawn stay drawn. -/
theorem mem_channels_step (h : id ∈ s.channels) : id ∈ (s.step c).1.channels := by
  cases c with
  | create id' tenant ns name now => exact Std.ExtTreeMap.mem_insert.2 (.inr h)
  | appendLog id' line =>
    simp only [step, JobsTable.appendLog]
    split
    · exact h
    · exact Std.ExtTreeMap.mem_insert.2 (.inr h)
  | update id' f now =>
    simp only [step, JobsTable.update]
    split <;> exact h
  | delete id' tenant =>
    simp only [step, JobsTable.delete]
    split
    · exact h
    · split_ifs <;> exact h
  | view id' tenant => exact h
  | subscribeLog id' tenant =>
    simp only [step]
    split <;> exact h
  | recv k =>
    simp only [step, JobsTable.recv]
    split <;> exact h

/-- A job that is set anew, with its tenant. -/
theorem tenant_of_insert {id' : Text} {old new job : Job} (hget : s.jobs[id']? = some old)
    (h : (s.jobs.insert id' new)[id]? = some job) (htenant : new.tenant = old.tenant) :
    ∃ old, s.jobs[id]? = some old ∧ old.tenant = job.tenant := by
  rw [TextMap.getElem?_insert] at h
  split_ifs at h with heq
  · cases h
    exact ⟨old, heq ▸ hget, htenant.symm⟩
  · exact ⟨job, h, rfl⟩

/-- **The tenant of a job** is that it was created for: no call but its creation sets it. -/
theorem tenant_step {job : Job} (h : (s.step c).1.jobs[id]? = some job) :
    c.Creates id job.tenant ∨ ∃ old, s.jobs[id]? = some old ∧ old.tenant = job.tenant := by
  have hkept : s.jobs[id]? = some job → ∃ old, s.jobs[id]? = some old ∧ old.tenant = job.tenant :=
    fun h => ⟨job, h, rfl⟩
  cases c with
  | create id' tenant ns name now =>
    simp only [step, JobsTable.create] at h
    rw [TextMap.getElem?_insert] at h
    split_ifs at h with heq
    · cases h
      subst heq
      exact .inl ⟨ns, name, now, rfl⟩
    · exact .inr (hkept h)
  | appendLog id' line =>
    simp only [step, JobsTable.appendLog] at h
    cases hget : s.jobs[id']? with
    | none => rw [hget] at h; exact .inr (hkept h)
    | some old =>
      rw [hget] at h
      exact .inr (tenant_of_insert hget h rfl)
  | update id' f now =>
    simp only [step, JobsTable.update] at h
    cases hget : s.jobs[id']? with
    | none => rw [hget] at h; exact .inr (hkept h)
    | some old =>
      rw [hget] at h
      exact .inr (tenant_of_insert hget h rfl)
  | delete id' tenant =>
    simp only [step, JobsTable.delete] at h
    split at h
    · exact .inr (hkept h)
    · split_ifs at h
      · exact .inr (hkept h)
      · rw [TextMap.getElem?_erase] at h
        split_ifs at h
        exact .inr (hkept h)
  | view id' tenant => exact .inr (hkept h)
  | subscribeLog id' tenant =>
    simp only [step] at h
    split at h <;> exact .inr (hkept h)
  | recv k =>
    simp only [step, JobsTable.recv] at h
    split at h <;> exact .inr (hkept h)

/-! ### Isolation -/

/-- A call does not see a job: it is answered as without the job, and leaves the job and its log. -/
structure Blind (s : JobsTable) (id : Text) (c : JobCall) : Prop where
  answer : (s.step c).2 = ((s.without id).step c).2
  subscribers : (s.step c).1.subscribers = ((s.without id).step c).1.subscribers
  job : (s.step c).1.jobs[id]? = s.jobs[id]?
  channel : (s.step c).1.channels[id]? = s.channels[id]?

/-- **The calls of other tenants do not see a job.** -/
theorem blind_of_tenant {tenant : Text} (hid : id ∈ s.channels)
    (howner : ∀ job, s.jobs[id]? = some job → job.tenant ≠ tenant) (hc : c.Fresh s)
    (htenant : c.tenant? = some tenant) : s.Blind id c := by
  have hwithout : ∀ id', (s.without id).jobs[id']? = if id = id' then none else s.jobs[id']? :=
    TextMap.getElem?_erase s.jobs id
  cases c with
  | appendLog _ _ => cases htenant
  | update _ _ _ => cases htenant
  | recv _ => cases htenant
  | create id' tenant' ns name now =>
    have hne : id' ≠ id := fun heq => hc (heq ▸ hid)
    refine ⟨rfl, rfl, ?_, ?_⟩
    · exact (TextMap.getElem?_insert ..).trans (if_neg hne)
    · exact (TextMap.getElem?_insert ..).trans (if_neg hne)
  | view id' tenant' =>
    cases htenant
    refine ⟨?_, rfl, rfl, rfl⟩
    simp only [step, JobsTable.view, hwithout]
    split_ifs with heq
    · subst heq
      cases hget : s.jobs[id]? with
      | none => rfl
      | some job => exact congrArg JobAnswer.view (if_pos (howner job hget))
    · rfl
  | subscribeLog id' tenant' =>
    cases htenant
    by_cases heq : id = id'
    · subst heq
      have hsubscribe : s.subscribeLog id tenant = none := by
        unfold JobsTable.subscribeLog
        cases hget : s.jobs[id]? with
        | none => rfl
        | some job => exact if_pos (howner job hget)
      have hunknown : (s.without id).subscribeLog id tenant = none := by
        rw [JobsTable.subscribeLog, hwithout, if_pos rfl]
        rfl
      refine ⟨?_, ?_, ?_, ?_⟩ <;> simp only [step, hsubscribe, hunknown]
      rfl
    · have hsame : (s.without id).subscribeLog id' tenant = s.subscribeLog id' tenant := by
        rw [JobsTable.subscribeLog, hwithout, if_neg heq]
        rfl
      refine ⟨?_, ?_, ?_, ?_⟩ <;> simp only [step, hsame] <;> split <;> rfl
  | delete id' tenant' =>
    cases htenant
    by_cases heq : id = id'
    · subst heq
      have hdelete : s.delete id tenant = (false, s) := by
        unfold JobsTable.delete
        cases hget : s.jobs[id]? with
        | none => rfl
        | some job => exact if_pos (howner job hget)
      have hunknown : (s.without id).delete id tenant = (false, s.without id) := by
        rw [JobsTable.delete, hwithout, if_pos rfl]
      refine ⟨?_, ?_, ?_, ?_⟩ <;> simp only [step, hdelete, hunknown]
      rfl
    · refine ⟨?_, ?_, ?_, ?_⟩ <;> simp only [step, JobsTable.delete, hwithout, if_neg heq]
      · split
        · rfl
        · split_ifs <;> rfl
      · split
        · rfl
        · split_ifs <;> rfl
      · split
        · rfl
        · split_ifs
          · rfl
          · exact (TextMap.getElem?_erase ..).trans (if_neg (Ne.symm heq))
      · split
        · rfl
        · split_ifs <;> rfl

/-! ### Delivery -/

/-- A subscriber was given what was appended before its position, and missed nothing. -/
structure Delivered (lines : Text → List Text) (x : Subscriber) : Prop where
  next_le : x.next ≤ (lines x.job).length
  given : x.replay ++ x.lines = (lines x.job).take x.next
  complete : ∀ n, .lagged n ∉ x.received

theorem Delivered.mono {lines more : Text → List Text} {x : Subscriber} (h : Delivered lines x) :
    Delivered (fun id => lines id ++ more id) x where
  next_le := by
    rw [List.length_append]
    exact h.next_le.trans (Nat.le_add_right _ _)
  given := by rw [h.given, List.take_append_of_le_length h.next_le]
  complete := h.complete

/-- **A subscriber that keeps up is given each line once**: what a call adds to a log comes after
what it was given, and what it receives is the next line. -/
theorem Inv.delivered_step {lines : Text → List Text} (h : Inv s lines) {k : Nat}
    (hold : ∀ y, s.subscribers[k]? = some y → s.behind y ≤ logCapacity ∧ Delivered lines y)
    {x : Subscriber} (hx : (s.step c).1.subscribers[k]? = some x) :
    Delivered (fun id => lines id ++ s.lineOf id c) x := by
  refine Delivered.mono ?_
  rcases subscribers_step hx with hy | ⟨id, job, hget, rfl⟩ | ⟨y, r, next, hy, hrecv, rfl⟩
  · exact (hold x hy).2
  · -- the buffer holds what was sent, and the position is at its end
    have hlen : (s.channel id).tail = (lines id).length := (h.holds id).tail
    refine ⟨hlen.le, ?_, fun n => List.not_mem_nil⟩
    rw [h.buffer id job hget, hlen, List.take_length]
    exact List.append_nil _
  · obtain ⟨hbehind, hgiven⟩ := hold y hy
    unfold behind at hbehind
    rw [(h.holds y.job).tail] at hbehind
    obtain ⟨r', hr', hvalue, hdrop⟩ := (h.holds y.job).recv hgiven.next_le hbehind
    obtain ⟨rfl, rfl⟩ := Prod.mk.inj (hrecv.symm.trans hr')
    have hlen := congrArg List.length hdrop
    rw [List.length_drop, List.length_append, List.length_drop] at hlen
    refine ⟨?_, ?_, fun n hn => ?_⟩
    · have hnext := hgiven.next_le
      change y.next + r.line.length ≤ (lines y.job).length
      omega
    · rw [List.take_add, hdrop, List.take_left, ← hgiven.given, Subscriber.lines,
        List.flatMap_append, List.flatMap_singleton, List.append_assoc]
      rfl
    · rcases List.mem_append.1 hn with hn | hn
      · exact hgiven.complete n hn
      · exact hvalue n (List.mem_singleton.1 hn).symm

/-! ### Runs -/

/-- The subscriber is never further behind than the channel keeps, at no point of the run. -/
def KeepsUp (k : Nat) (calls : List JobCall) : Prop :=
  ∀ before, before <+: calls → ∀ x : Subscriber,
    (jobsTable.after .new before).subscribers[k]? = some x →
      (jobsTable.after .new before).behind x ≤ logCapacity

theorem appended_concat (id : Text) (s : JobsTable) (calls : List JobCall) (c : JobCall) :
    appended id s (calls ++ [c]) = appended id s calls ++ (jobsTable.after s calls).lineOf id c := by
  induction calls generalizing s with
  | nil => exact List.append_nil _
  | cons c' calls ih =>
    exact (congrArg (s.lineOf id c' ++ ·) (ih _)).trans (List.append_assoc ..).symm

variable {calls : List JobCall}

theorem Inv.run (hfresh : jobsTable.Meets JobCall.Fresh .new calls) :
    Inv (jobsTable.after .new calls) fun id => appended id .new calls := by
  induction calls using List.reverseRecOn with
  | nil => exact .new
  | append_singleton calls c ih =>
    obtain ⟨hcalls, hc⟩ := hfresh.of_concat
    simp only [appended_concat, Reactor.after_concat]
    exact (ih hcalls).step hc

theorem Delivered.run (hfresh : jobsTable.Meets JobCall.Fresh .new calls) {k : Nat}
    (hkeeps : KeepsUp k calls) {x : Subscriber}
    (hx : (jobsTable.after .new calls).subscribers[k]? = some x) :
    Delivered (fun id => appended id .new calls) x := by
  induction calls using List.reverseRecOn generalizing x with
  | nil => cases hx
  | append_singleton calls c ih =>
    obtain ⟨hcalls, -⟩ := hfresh.of_concat
    have hbefore : KeepsUp k calls := fun before hb =>
      hkeeps before (hb.trans (List.prefix_append ..))
    rw [Reactor.after_concat] at hx
    simp only [appended_concat]
    exact (Inv.run hcalls).delivered_step
      (fun y hy => ⟨hbefore calls List.prefix_rfl y hy, ih hcalls hbefore hy⟩) hx

/-- A job that was created for a tenant has that tenant, as long as there is one. -/
theorem tenant_run (hfresh : jobsTable.Meets JobCall.Fresh .new calls) {c : JobCall}
    (hc : c ∈ calls) {id tenant : Text} (hcreates : c.Creates id tenant) :
    id ∈ (jobsTable.after .new calls).channels ∧
      ∀ job, (jobsTable.after .new calls).jobs[id]? = some job → job.tenant = tenant := by
  induction calls using List.reverseRecOn with
  | nil => cases hc
  | append_singleton calls c' ih =>
    obtain ⟨hcalls, hlast⟩ := hfresh.of_concat
    rw [Reactor.after_concat]
    rcases List.mem_append.1 hc with hc | hc
    · obtain ⟨hid, hjob⟩ := ih hcalls hc
      refine ⟨mem_channels_step hid, fun job hget => ?_⟩
      rcases tenant_step hget with hnew | ⟨old, hold, heq⟩
      · -- the id is not drawn again
        obtain ⟨ns, name, now, rfl⟩ := hnew
        exact absurd hid hlast
      · exact heq ▸ hjob old hold
    · obtain rfl := List.mem_singleton.1 hc
      obtain ⟨ns, name, now, rfl⟩ := hcreates
      refine ⟨Std.ExtTreeMap.mem_insert_self, fun job hget => ?_⟩
      have hget' := (TextMap.getElem?_insert ..).symm.trans hget
      rw [if_pos rfl] at hget'
      cases hget'
      rfl

/-- **Tenants are isolated, and logs are delivered exactly once**, in every run in which no id is
drawn twice.  The calls of other tenants do not see a job; and what a subscriber was given, with
what it has before it on the channel, are the lines of the job, each once and in order. -/
theorem isolated_and_delivered (calls : List JobCall)
    (hfresh : jobsTable.Meets JobCall.Fresh .new calls) :
    (∀ (c c' : JobCall) (id owner tenant : Text), c ∈ calls → c.Creates id owner →
      c'.tenant? = some tenant → tenant ≠ owner → c'.Fresh (jobsTable.after .new calls) →
        (jobsTable.after .new calls).Blind id c') ∧
    ∀ (k : Nat) (x : Subscriber), (jobsTable.after .new calls).subscribers[k]? = some x →
      KeepsUp k calls →
        x.replay ++ x.lines ++ (jobsTable.after .new calls).unread x = appended x.job .new calls ∧
        ∀ n, .lagged n ∉ x.received := by
  refine ⟨fun c c' id owner tenant hc hcreates htenant hne hc' => ?_, fun k x hx hkeeps => ?_⟩
  · obtain ⟨hid, howner⟩ := tenant_run hfresh hc hcreates
    exact blind_of_tenant hid (fun job hget heq => hne (heq.symm.trans (howner job hget)))
      hc' htenant
  · have hgiven := Delivered.run hfresh hkeeps hx
    have hholds := (Inv.run hfresh).holds x.job
    have hbehind := hkeeps calls List.prefix_rfl x hx
    unfold behind at hbehind
    rw [hholds.tail] at hbehind
    refine ⟨?_, hgiven.complete⟩
    rw [hgiven.given, unread, hholds.unread hgiven.next_le hbehind, List.take_append_drop]

theorem length_lineOf_le (s : JobsTable) (id : Text) (c : JobCall) :
    (s.lineOf id c).length ≤ 1 := by
  unfold lineOf
  split
  · split_ifs <;> simp
  · simp

theorem length_appended_le (id : Text) (s : JobsTable) (calls : List JobCall) :
    (appended id s calls).length ≤ calls.length := by
  induction calls generalizing s with
  | nil => exact le_rfl
  | cons c calls ih =>
    have hc := length_lineOf_le s id c
    have hcalls := ih (s.step c).1
    rw [appended, List.length_append, List.length_cons]
    omega

theorem meets_of_initial {before : List JobCall} (h : before <+: calls)
    (hfresh : jobsTable.Meets JobCall.Fresh .new calls) :
    jobsTable.Meets JobCall.Fresh .new before := by
  obtain ⟨rest, rfl⟩ := h
  induction rest using List.reverseRecOn with
  | nil => exact List.append_nil before ▸ hfresh
  | append_singleton rest c ih => exact ih (List.append_assoc .. ▸ hfresh).of_concat.1

/-- In a short run all subscribers keep up. -/
theorem keepsUp_of_length_le (hfresh : jobsTable.Meets JobCall.Fresh .new calls)
    (hlen : calls.length ≤ logCapacity) (k : Nat) : KeepsUp k calls := by
  intro before hbefore x _
  have htail := ((Inv.run (meets_of_initial hbefore hfresh)).holds x.job).tail
  have happended := length_appended_le x.job .new before
  have hshort := hbefore.length_le
  unfold behind
  omega

/-- Two tenants: one creates a job, whose log is followed from its first line on; the other asks
for the job. -/
def demoCalls : List JobCall :=
  [.create "j1".toList "alice".toList "text".toList "words".toList "t0".toList,
    .appendLog "j1".toList "one".toList, .subscribeLog "j1".toList "alice".toList,
    .appendLog "j1".toList "two".toList, .recv 0, .view "j1".toList "bob".toList,
    .delete "j1".toList "bob".toList, .appendLog "j1".toList "three".toList]

theorem demoCalls_fresh : jobsTable.Meets JobCall.Fresh .new demoCalls :=
  ⟨Std.ExtTreeMap.not_mem_empty, trivial, trivial, trivial, trivial, trivial, trivial, trivial,
    trivial⟩

theorem isolated_and_delivered_demo :
    (jobsTable.after .new demoCalls).Blind "j1".toList (.view "j1".toList "bob".toList) ∧
      ∃ x, (jobsTable.after .new demoCalls).subscribers[0]? = some x ∧
        x.replay ++ x.lines = ["one".toList, "two".toList] ∧
        x.replay ++ x.lines ++ (jobsTable.after .new demoCalls).unread x =
          ["one".toList, "two".toList, "three".toList] := by
  have happended : appended "j1".toList .new demoCalls =
      ["one".toList, "two".toList, "three".toList] := by decide +kernel
  have hsub : (jobsTable.after .new demoCalls).subscribers[0]? =
      some ⟨"j1".toList, ["one".toList], 2, [.value "two".toList]⟩ := by rfl
  obtain ⟨hisolated, hdelivered⟩ := isolated_and_delivered demoCalls demoCalls_fresh
  refine ⟨hisolated _ _ _ "alice".toList "bob".toList List.mem_cons_self ⟨_, _, _, rfl⟩ rfl ?_
    trivial, _, hsub, rfl, ?_⟩
  · decide +kernel
  · have hkeeps := keepsUp_of_length_le demoCalls_fresh (by decide) 0
    exact (hdelivered 0 _ hsub hkeeps).1.trans happended

end JobsTable

end Omp
