import Omp.Server
import Omp.Concrete

/-!
# What tenants see of each other

What a caller sees of the server, the replies to its requests and the events of its streams, is the
same as in the run without the requests of the other tenants, if two things are ruled out: that the
event of another tenant's commit is published while the caller has a stream open, and that the
first request of another tenant makes the directory whose presence `/readyz` tells.

Neither is checked.  The handler of `/watch` does not look at the token and every stream gets every
event, so that a caller without a token sees when each tenant commits.

The counters of `/metrics` count all requests.  They are left out of what a caller without a token
sees, and a tenant must not ask for them once another has been counted.

## Main definitions

* `Server.Step.kept`, `Server.Output.seenBy` : the requests that are not taken out, and what a
  caller sees.
* `Route.Quiet`, `Server.Step.Quiet` : the condition on a step.
* `Server.Alike` : the relation between the states of the two runs.

## Main results

* `Server.unwinding` : each step keeps the relation, and shows the caller the same.
* `Server.noninterference` : what a caller sees, in every run whose steps meet the condition.
* `Server.watch_discloses` : a step that does not meet it shows the caller an event.
* `Server.interference` : a run in which the caller sees the difference.
-/

namespace Omp

open Lib

variable (W : World)

/-- Whether a request with such a caller is not one of another tenant than the observer. -/
def Server.keeps (o caller : Option Text) : Bool := caller == none || caller == o

/-- A request that does not tell the observer of another tenant: none has been counted when the
observer asks for the counters, and the directory of the tenants is there when another tenant is
served. -/
def Route.Quiet (o caller : Option Text) (s : Server) : Route → Prop
  | .metrics => caller = o → o.isSome = true → ∀ c ∈ s.counted, Server.keeps o c.caller = true
  | .tenant _ => Server.keeps o caller = false → s.baseExists = true
  | _ => True

namespace Server

/-- A step that is not a request of another tenant than the observer. -/
def Step.kept (registry : TenantRegistry) (o : Option Text) : Step → Bool
  | .request _ authorization .. => keeps o (registry.callerOf W authorization)
  | .publish .. | .read .. | .close .. => true

/-- What a caller sees: what is shown to it, but for the counters if it has no token. -/
def Output.seenBy {J : Type} (o : Option Text) (out : Output J) : Bool :=
  out.caller == o && match out.shown with
    | .inl reply => o.isSome || !reply.isCounters
    | .inr _ => true

/-- A step that does not tell the observer of another tenant: no event of one is published while a
stream of the observer is open. -/
def Step.Quiet (o : Option Text) (s : Server) : Step → Prop
  | .request _ authorization route .. => route.Quiet o (s.registry.callerOf W authorization) s
  | .publish tenant id => o ≠ some tenant → (s.tasks.find? (isTask tenant id)).isSome = true →
      ∀ x ∈ s.streams, x.caller ≠ o
  | .read .. | .close .. => True

/-- Whether a task publishes an event of the observer. -/
def ownTask (o : Option Text) (t : PublishTask) : Bool := o == some t.envelope.tenant

/-- Whether a stream is one of the observer's. -/
def ownStream (o : Option Text) (x : WatchStream) : Bool := x.caller == o

/-- The second server is as the first would be had the other tenants asked nothing. -/
structure Alike (registry : TenantRegistry) (o : Option Text) (s t : Server) : Prop where
  registry_left : s.registry = registry
  registry_right : t.registry = registry
  base : s.baseExists = t.baseExists
  disk : ∀ tenant, o = some tenant → s.disk[tenant]? = t.disk[tenant]?
  repos : ∀ tenant, o = some tenant → s.repos[tenant]? = t.repos[tenant]?
  tasks : s.tasks.filter (ownTask o) = t.tasks
  streams : s.streams.filter (ownStream o) = t.streams.filter (ownStream o)
  counted : s.counted.filter (fun c => keeps o c.caller) = t.counted

variable {W} {J : Type} {M : Methods J} {registry : TenantRegistry} {o : Option Text}
  {s t : Server}

theorem Alike.start (registry : TenantRegistry) (o : Option Text) (base : Bool)
    (disk : TextMap Repo) :
    Alike registry o (start registry base disk) (start registry base disk) :=
  ⟨rfl, rfl, rfl, fun _ _ => rfl, fun _ _ => rfl, rfl, rfl, rfl⟩

/-! ### Whom a request is from -/

theorem resolve_of_none {authorization : Option Text}
    (h : registry.callerOf W authorization = none) :
    ∃ e, ∀ s : Server, s.registry = registry → s.resolve W authorization = .error e := by
  unfold TenantRegistry.callerOf at h
  cases htoken : extractBearer authorization with
  | none => exact ⟨_, fun s _ => by rw [resolve, htoken]⟩
  | some token =>
    rw [htoken] at h
    cases hentry : registry.byToken W token with
    | none =>
      refine ⟨.unauthorized "invalid token".toList, fun s hs => ?_⟩
      rw [resolve, htoken]
      dsimp only
      rw [hs, hentry]
    | some entry =>
      rw [Option.bind_eq_bind, Option.bind_some, hentry] at h
      cases h

theorem resolve_of_some {authorization : Option Text} {tenant : Text}
    (h : registry.callerOf W authorization = some tenant) :
    ∃ quotas mode, ∀ s : Server, s.registry = registry → s.resolve W authorization =
      .ok (⟨tenant, (s.getOrOpen tenant quotas).1, mode⟩, (s.getOrOpen tenant quotas).2) := by
  obtain ⟨token, htoken, h⟩ := Option.bind_eq_some_iff.1 h
  obtain ⟨entry, hentry, h⟩ := Option.bind_eq_some_iff.1 h
  cases h
  refine ⟨entry.quotas, entry.encryptionMode, fun s hs => ?_⟩
  rw [resolve, htoken]
  dsimp only
  rw [hs, hentry]

/-! ### What a handler publishes -/

theorem none_of_quietly {x : RepoOp (Response J)} {r r' : Repo} {reply : Response J}
    {e : Option Envelope} (h : (quietly x).run r = (.ok (reply, e), r')) : e = none := by
  obtain ⟨reply', r₁, -, h⟩ := Op.bind_eq_ok.1 h
  obtain ⟨h, -⟩ := Op.pure_eq_ok.1 h
  exact (Prod.mk.inj h).2.symm

/-- What a handler publishes is of the tenant it is called for. -/
theorem tenant_of_handle {tr : TenantRepo} {env : Env} {now : Text} {route : TenantRoute}
    {r r' : Repo} {reply : Response J} {e : Envelope}
    (h : (route.handle W M tr env now).run r = (.ok (reply, some e), r')) :
    e.tenant = tr.tenant := by
  cases route with
  | commit message author =>
    obtain ⟨⟨h', reprobed⟩, r₁, -, h⟩ := Op.bind_eq_ok.1 h
    obtain ⟨branch, r₂, -, h⟩ := Op.bind_eq_ok.1 h
    obtain ⟨h, -⟩ := Op.pure_eq_ok.1 h
    rw [← Option.some.inj (Prod.mk.inj h).2]
    rfl
  | _ => cases none_of_quietly h

theorem tenant_of_serve {tr : TenantRepo} {env : Env} {now : Text} {route : TenantRoute}
    {r : Repo} {e : Envelope}
    (h : (serve (route.handle W M tr env now) r).1.2 = some e) : e.tenant = tr.tenant := by
  unfold serve at h
  split at h
  · next res r' hrun =>
    obtain ⟨reply, e'⟩ := res
    cases h
    exact tenant_of_handle hrun
  · cases h
  · cases h

/-! ### Handles -/

theorem getOrOpen_frame (s : Server) {tenant other : Text} (quotas : Quotas)
    (hne : other ≠ tenant) :
    (s.getOrOpen tenant quotas).2.disk[other]? = s.disk[other]? ∧
      (s.getOrOpen tenant quotas).2.repos[other]? = s.repos[other]? := by
  unfold getOrOpen
  split
  · exact ⟨rfl, rfl⟩
  · dsimp only
    split_ifs <;> simp [TextMap.getElem?_insert, hne.symm]

/-- What opening a handle leaves alone. -/
theorem getOrOpen_same (s : Server) (tenant : Text) (quotas : Quotas) :
    (s.getOrOpen tenant quotas).2.registry = s.registry ∧
      (s.getOrOpen tenant quotas).2.tasks = s.tasks ∧
      (s.getOrOpen tenant quotas).2.streams = s.streams ∧
      (s.getOrOpen tenant quotas).2.counted = s.counted ∧
      (s.baseExists = true → (s.getOrOpen tenant quotas).2.baseExists = true) := by
  unfold getOrOpen
  split
  · exact ⟨rfl, rfl, rfl, rfl, id⟩
  · dsimp only
    split_ifs
    · exact ⟨rfl, rfl, rfl, rfl, id⟩
    · exact ⟨rfl, rfl, rfl, rfl, fun _ => rfl⟩

/-- Opening a handle of the observer. -/
theorem Alike.getOrOpen {tenant : Text} (h : Alike registry (some tenant) s t) (quotas : Quotas) :
    (s.getOrOpen tenant quotas).1 = (t.getOrOpen tenant quotas).1 ∧
      Alike registry (some tenant) (s.getOrOpen tenant quotas).2
        (t.getOrOpen tenant quotas).2 := by
  have hrepos := h.repos tenant rfl
  have hdisk := h.disk tenant rfl
  have hcontains : s.disk.contains tenant = t.disk.contains tenant := by
    rw [Std.ExtTreeMap.contains_eq_isSome_getElem?, hdisk,
      ← Std.ExtTreeMap.contains_eq_isSome_getElem?]
  unfold Server.getOrOpen
  rw [← hrepos, ← hcontains]
  cases s.repos[tenant]? with
  | some opened => exact ⟨rfl, h⟩
  | none =>
    have hinsert : ∀ {V : Type} {m m' : TextMap V} (v : V) (other : Text),
        some tenant = some other → (m.insert tenant v)[other]? = (m'.insert tenant v)[other]? := by
      intro V m m' v other hother
      cases hother
      rw [TextMap.getElem?_insert, TextMap.getElem?_insert]
      simp
    refine ⟨rfl, ?_⟩
    dsimp only
    split_ifs
    · exact ⟨h.registry_left, h.registry_right, h.base, h.disk, hinsert quotas, h.tasks, h.streams,
        h.counted⟩
    · exact ⟨h.registry_left, h.registry_right, rfl, hinsert _, hinsert quotas, h.tasks, h.streams,
        h.counted⟩

/-! ### Requests -/

/-- The server after a request of a tenant was served. -/
def afterServe (s : Server) (tenant : Text) (repo : Repo) (id : Nat) (e : Option Envelope) :
    Server :=
  { s with
    disk := s.disk.insert tenant repo
    tasks := s.tasks ++ (e.map (PublishTask.mk id)).toList }

/-- What a request for the repository of a tenant does. -/
theorem respond_tenant {authorization : Option Text} {tenant : Text}
    (hcaller : registry.callerOf W authorization = some tenant) (id : Nat) (env : Env) (now : Text)
    (route : TenantRoute) : ∃ quotas mode, ∀ s : Server, s.registry = registry →
      let opened := s.getOrOpen tenant quotas
      let served := serve (route.handle W M ⟨tenant, opened.1, mode⟩
        { env with quotas := opened.1 } now) (opened.2.disk[tenant]?.getD .init)
      s.respond W M id authorization env now (.tenant route) =
        (served.1.1, opened.2.afterServe tenant served.2 id served.1.2) := by
  obtain ⟨quotas, mode, hresolve⟩ := resolve_of_some hcaller
  refine ⟨quotas, mode, fun s hs => ?_⟩
  dsimp only
  rw [respond, hresolve s hs]
  rfl

theorem filter_ownTask {tenant : Text} {id : Nat} {e : Option Envelope}
    (he : ∀ env ∈ e, env.tenant = tenant) (o : Option Text) :
    ((e.map (PublishTask.mk id)).toList).filter (ownTask o) =
      if o = some tenant then (e.map (PublishTask.mk id)).toList else [] := by
  cases e with
  | none => simp
  | some env =>
    simp only [Option.map_some, Option.toList_some, List.filter_cons, List.filter_nil, ownTask,
      he env rfl, beq_iff_eq]

/-- **A request that is not taken out**: what is replied is the same, or not seen. -/
theorem Alike.respond (h : Alike registry o s t) (id : Nat) {authorization : Option Text}
    (env : Env) (now : Text) (route : Route)
    (hkept : keeps o (registry.callerOf W authorization) = true)
    (hquiet : route.Quiet o (registry.callerOf W authorization) s) :
    Alike registry o (s.respond W M id authorization env now route).2
        (t.respond W M id authorization env now route).2 ∧
      ((s.respond W M id authorization env now route).1 =
          (t.respond W M id authorization env now route).1 ∨
        (route = .metrics ∧ ¬(registry.callerOf W authorization = o ∧ o.isSome = true))) := by
  cases route with
  | healthz => exact ⟨h, .inl rfl⟩
  | livez => exact ⟨h, .inl rfl⟩
  | readyz | startupz =>
    refine ⟨h, .inl ?_⟩
    dsimp only [Server.respond]
    rw [h.base]
  | metrics =>
    refine ⟨h, ?_⟩
    by_cases hown : registry.callerOf W authorization = o ∧ o.isSome = true
    · -- no request of another tenant was counted
      refine .inl ?_
      dsimp only [Server.respond]
      rw [← h.counted, List.filter_eq_self.2 (hquiet hown.1 hown.2)]
    · exact .inr ⟨rfl, hown⟩
  | watch =>
    refine ⟨⟨h.registry_left, h.registry_right, h.base, h.disk, h.repos, h.tasks, ?_, h.counted⟩,
      .inl rfl⟩
    dsimp only [Server.respond]
    rw [List.filter_append, List.filter_append, h.streams, h.registry_left, h.registry_right]
  | tenant route =>
    cases hcaller : registry.callerOf W authorization with
    | none =>
      -- without a token there is nothing but an error
      obtain ⟨e, he⟩ := resolve_of_none hcaller
      rw [Server.respond, Server.respond, he s h.registry_left, he t h.registry_right]
      exact ⟨h, .inl rfl⟩
    | some tenant =>
      obtain rfl : some tenant = o := by
        rw [hcaller] at hkept
        simpa [keeps] using hkept
      obtain ⟨quotas, mode, hrespond⟩ := respond_tenant (M := M) hcaller id env now route
      obtain ⟨hquotas, hopen⟩ := h.getOrOpen quotas
      rw [hrespond s h.registry_left, hrespond t h.registry_right]
      dsimp only
      rw [hquotas, hopen.disk tenant rfl]
      refine ⟨⟨hopen.registry_left, hopen.registry_right, hopen.base, ?_, hopen.repos, ?_,
        hopen.streams, hopen.counted⟩, .inl rfl⟩
      · intro other hother
        cases hother
        rw [afterServe, afterServe, TextMap.getElem?_insert, TextMap.getElem?_insert]
        simp
      · rw [afterServe, afterServe, List.filter_append, hopen.tasks,
          filter_ownTask (fun env henv => tenant_of_serve henv), if_pos rfl]

/-- **A request that is taken out**, of another tenant. -/
theorem Alike.respond_other (h : Alike registry o s t) (id : Nat) {authorization : Option Text}
    (env : Env) (now : Text) (route : Route) {tenant : Text}
    (hcaller : registry.callerOf W authorization = some tenant) (hother : o ≠ some tenant)
    (hquiet : route.Quiet o (some tenant) s) :
    Alike registry o (s.respond W M id authorization env now route).2 t := by
  cases route with
  | healthz | livez | readyz | startupz | metrics => exact h
  | watch =>
    refine ⟨h.registry_left, h.registry_right, h.base, h.disk, h.repos, h.tasks, ?_, h.counted⟩
    dsimp only [Server.respond]
    rw [List.filter_append, h.streams, h.registry_left, hcaller]
    simp [ownStream, Ne.symm hother]
  | tenant route =>
    have hbase : s.baseExists = true := hquiet (by simpa [keeps] using Ne.symm hother)
    obtain ⟨quotas, mode, hrespond⟩ := respond_tenant (M := M) hcaller id env now route
    obtain ⟨hregistry, htasks, hstreams, hcounted, hbase'⟩ := getOrOpen_same s tenant quotas
    rw [hrespond s h.registry_left]
    dsimp only
    refine ⟨hregistry.trans h.registry_left, h.registry_right, ?_, fun own hown => ?_,
      fun own hown => ?_, ?_, ?_, ?_⟩
    · exact (hbase' hbase).trans (hbase.symm.trans h.base)
    · have hne : own ≠ tenant := fun heq => hother (heq ▸ hown)
      rw [afterServe, TextMap.getElem?_insert, if_neg hne.symm, (getOrOpen_frame s quotas hne).1]
      exact h.disk own hown
    · have hne : own ≠ tenant := fun heq => hother (heq ▸ hown)
      exact (getOrOpen_frame s quotas hne).2.trans (h.repos own hown)
    · rw [afterServe, List.filter_append, htasks, h.tasks,
        filter_ownTask (fun env henv => tenant_of_serve henv), if_neg hother, List.append_nil]
    · exact (congrArg _ hstreams).trans h.streams
    · exact (congrArg _ hcounted).trans h.counted

/-! ### Events -/

theorem ownTask_of_isTask {tenant : Text} {id : Nat} {x : PublishTask}
    (h : isTask tenant id x = true) : ownTask o x = (o == some tenant) := by
  obtain ⟨htenant, -⟩ := Bool.and_eq_true_iff.1 h
  rw [ownTask, beq_iff_eq.1 htenant]

theorem find?_ownTask (h : Alike registry o s t) (tenant : Text) (id : Nat) :
    t.tasks.find? (isTask tenant id) =
      if o = some tenant then s.tasks.find? (isTask tenant id) else none := by
  rw [← h.tasks, List.find?_filter]
  split_ifs with ho
  · refine congrArg (List.find? · s.tasks) (funext fun x => ?_)
    cases hx : isTask tenant id x with
    | false => simp
    | true => simp [ownTask_of_isTask hx, ho]
  · rw [List.find?_eq_none]
    intro x _ hx
    rw [decide_eq_true_iff] at hx
    rw [ownTask_of_isTask hx.2, beq_iff_eq] at hx
    exact ho hx.1

theorem ownStream_receive (e : Envelope) (x : WatchStream) :
    ownStream o (receive e x) = ownStream o x := by
  simp only [ownStream, receive]

/-- **A task publishes**: that of the observer in both runs, and that of another tenant when no
stream of the observer is open. -/
theorem Alike.publish (h : Alike registry o s t) {tenant : Text} {id : Nat}
    (hquiet : o ≠ some tenant → (s.tasks.find? (isTask tenant id)).isSome = true →
      ∀ x ∈ s.streams, x.caller ≠ o) :
    Alike registry o (s.publish tenant id) (t.publish tenant id) := by
  have hfind := find?_ownTask h tenant id
  have hcomm : ∀ l : List PublishTask, (l.filter fun x => !isTask tenant id x).filter (ownTask o) =
      (l.filter (ownTask o)).filter fun x => !isTask tenant id x := by
    intro l
    rw [List.filter_filter, List.filter_filter]
    exact List.filter_congr fun x _ => Bool.and_comm _ _
  have hmap : ∀ (e : Envelope) (l : List WatchStream), (l.map (receive e)).filter (ownStream o) =
      (l.filter (ownStream o)).map (receive e) := by
    intro e l
    rw [List.filter_map]
    exact congrArg _ (List.filter_congr fun x _ => ownStream_receive e x)
  unfold Server.publish
  rw [hfind]
  by_cases ho : o = some tenant
  · rw [if_pos ho]
    cases s.tasks.find? (isTask tenant id) with
    | none => exact h
    | some x =>
      refine ⟨h.registry_left, h.registry_right, h.base, h.disk, h.repos, ?_, ?_, h.counted⟩
      · exact (hcomm _).trans (congrArg _ h.tasks)
      · exact (hmap _ _).trans ((congrArg _ h.streams).trans (hmap _ _).symm)
  · rw [if_neg ho]
    cases hx : s.tasks.find? (isTask tenant id) with
    | none => exact h
    | some x =>
      have hempty : s.streams.filter (ownStream o) = [] := by
        rw [List.filter_eq_nil_iff]
        exact fun y hy hown => hquiet ho (by rw [hx]; rfl) y hy (beq_iff_eq.1 hown)
      refine ⟨h.registry_left, h.registry_right, h.base, h.disk, h.repos, ?_, ?_, h.counted⟩
      · rw [hcomm, h.tasks, List.filter_eq_self, ← h.tasks]
        intro y hy
        have hown := List.of_mem_filter hy
        cases hy' : isTask tenant id y with
        | false => rfl
        | true =>
          rw [ownTask_of_isTask hy', beq_iff_eq] at hown
          exact absurd hown ho
      · rw [hmap, hempty, ← h.streams, hempty]
        rfl

theorem ownStream_of_isStream {caller : Option Text} {id : Nat} {x : WatchStream}
    (h : isStream caller id x = true) : ownStream o x = (caller == o) := by
  obtain ⟨hcaller, -⟩ := Bool.and_eq_true_iff.1 h
  rw [ownStream, beq_iff_eq.1 hcaller]

theorem find?_ownStream (l : List WatchStream) (id : Nat) :
    (l.filter (ownStream o)).find? (isStream o id) = l.find? (isStream o id) := by
  rw [List.find?_filter]
  refine congrArg (List.find? · l) (funext fun x => ?_)
  cases hx : isStream o id x with
  | false => simp
  | true => simp [ownStream_of_isStream hx]

/-- The streams when a client has read on in one. -/
def readOn (caller : Option Text) (id : Nat) (l : List WatchStream) : List WatchStream :=
  l.map fun y => if isStream caller id y then { y with pending := y.pending.tail } else y

theorem read_eq (s : Server) (caller : Option Text) (id : Nat) : s.read caller id =
    (((s.streams.find? (isStream caller id)).bind (·.pending.head?)).map Envelope.event,
      { s with streams := readOn caller id s.streams }) := by
  unfold Server.read
  cases h : s.streams.find? (isStream caller id) with
  | some x => rfl
  | none =>
    -- there is no such stream, so that all streams stay as they are
    have hstay : readOn caller id s.streams = s.streams := by
      rw [List.find?_eq_none] at h
      refine (List.map_congr_left fun x hx => if_neg (h x hx)).trans (List.map_id' _)
    rw [hstay]
    rfl

theorem filter_readOn (caller : Option Text) (id : Nat) (l : List WatchStream) :
    (readOn caller id l).filter (ownStream o) = readOn caller id (l.filter (ownStream o)) := by
  unfold readOn
  rw [List.filter_map]
  refine congrArg _ (List.filter_congr fun x _ => ?_)
  rw [Function.comp_apply]
  split_ifs <;> rfl

/-- **A client reads on**, which shows the observer the same. -/
theorem Alike.read (h : Alike registry o s t) (caller : Option Text) (id : Nat) :
    Alike registry o (s.read caller id).2 (t.read caller id).2 ∧
      (caller = o → (s.read caller id).1 = (t.read caller id).1) := by
  rw [read_eq, read_eq]
  refine ⟨⟨h.registry_left, h.registry_right, h.base, h.disk, h.repos, h.tasks, ?_, h.counted⟩, ?_⟩
  · dsimp only
    rw [filter_readOn, filter_readOn, h.streams]
  · rintro rfl
    dsimp only
    rw [← find?_ownStream s.streams, h.streams, find?_ownStream]

/-- **A stream is closed.** -/
theorem Alike.close (h : Alike registry o s t) (caller : Option Text) (id : Nat) :
    Alike registry o (s.close caller id) (t.close caller id) := by
  refine ⟨h.registry_left, h.registry_right, h.base, h.disk, h.repos, h.tasks, ?_, h.counted⟩
  have hcomm : ∀ l : List WatchStream,
      (l.filter fun x => !isStream caller id x).filter (ownStream o) =
        (l.filter (ownStream o)).filter fun x => !isStream caller id x := by
    intro l
    rw [List.filter_filter, List.filter_filter]
    exact List.filter_congr fun x _ => Bool.and_comm _ _
  unfold Server.close
  rw [hcomm, hcomm, h.streams]

/-- **What the stream discloses**: an event that is published reaches every open stream, whoever
opened it. -/
theorem watch_discloses {tenant : Text} {id : Nat} {task : PublishTask} {x : WatchStream}
    (htask : s.tasks.find? (isTask tenant id) = some task) (hx : x ∈ s.streams) :
    task.envelope.tenant = tenant ∧
      ∃ y ∈ (s.publish tenant id).streams, ownStream x.caller y = true ∧
        task.envelope ∈ y.pending := by
  have hfound : isTask tenant id task = true := List.find?_some htask
  obtain ⟨htenant, -⟩ := Bool.and_eq_true_iff.1 hfound
  refine ⟨beq_iff_eq.1 htenant, receive task.envelope x, ?_, ?_, ?_⟩
  · unfold Server.publish
    rw [htask]
    exact List.mem_map_of_mem hx
  · rw [ownStream_receive]
    exact beq_self_eq_true _
  · -- the oldest is dropped, not the last
    unfold receive
    dsimp only
    rw [List.drop_append_of_le_length]
    · exact List.mem_append_right _ (List.mem_singleton_self _)
    · rw [List.length_append, List.length_singleton]
      unfold capacity
      omega

/-! ### Runs -/

/-- A request is counted for its caller, whatever is replied. -/
theorem Alike.count (h : Alike registry o s t) {caller : Option Text}
    (hkept : keeps o caller = true) (op : Text) (status : Option Nat) :
    Alike registry o
      { s with counted := s.counted ++ (status.map (Counted.mk caller op)).toList }
      { t with counted := t.counted ++ (status.map (Counted.mk caller op)).toList } := by
  refine ⟨h.registry_left, h.registry_right, h.base, h.disk, h.repos, h.tasks, h.streams, ?_⟩
  dsimp only
  rw [List.filter_append, h.counted]
  cases status with
  | none => rfl
  | some status => simp [hkept]

/-- Counting a request of another tenant changes nothing for the observer. -/
theorem Alike.count_other (h : Alike registry o s t) {caller : Option Text}
    (hother : keeps o caller = false) (op : Text) (status : Option Nat) :
    Alike registry o
      { s with counted := s.counted ++ (status.map (Counted.mk caller op)).toList } t := by
  refine ⟨h.registry_left, h.registry_right, h.base, h.disk, h.repos, h.tasks, h.streams, ?_⟩
  dsimp only
  rw [List.filter_append, h.counted]
  cases status with
  | none => simp
  | some status => simp [hother]

/-- A request that both runs have. -/
theorem Alike.request (h : Alike registry o s t) (id : Nat) {authorization : Option Text}
    (env : Env) (now : Text) (route : Route)
    (hkept : keeps o (registry.callerOf W authorization) = true)
    (hquiet : route.Quiet o (registry.callerOf W authorization) s) :
    Alike registry o (s.request W M id authorization env now route).2
        (t.request W M id authorization env now route).2 ∧
      (some (Output.mk (registry.callerOf W authorization)
          (.inl (s.request W M id authorization env now route).1))).filter (Output.seenBy o) =
        (some (Output.mk (registry.callerOf W authorization)
          (.inl (t.request W M id authorization env now route).1))).filter (Output.seenBy o) := by
  obtain ⟨halike, hreply⟩ := h.respond (M := M) id env now route hkept hquiet
  have hcount := halike.count hkept route.op
    (s.respond W M id authorization env now route).1.status
  unfold Server.request
  dsimp only
  rw [h.registry_left, h.registry_right]
  rcases hreply with hsame | ⟨rfl, hhidden⟩
  · rw [← hsame]
    exact ⟨hcount, rfl⟩
  · refine ⟨hcount, ?_⟩
    -- the counters are not the observer's, or not shown to one without a token
    have hunseen : ∀ s : Server, Output.seenBy o ⟨registry.callerOf W authorization,
        .inl (s.respond W M id authorization env now .metrics).1⟩ = false := by
      intro s
      rw [Output.seenBy, Bool.and_eq_false_iff]
      by_cases hcaller : registry.callerOf W authorization = o
      · right
        cases o with
        | none => rfl
        | some tenant => exact absurd ⟨hcaller, rfl⟩ hhidden
      · exact .inl (beq_eq_false_iff_ne.2 hcaller)
    rw [Option.filter_some, Option.filter_some, hunseen s, hunseen t]
    rfl

/-- **Each step of the server** keeps the two runs alike, and shows the observer the same. -/
theorem unwinding (W : World) (M : Methods J) (registry : TenantRegistry) (o : Option Text) :
    (reactor W M).Unwinding (Output.seenBy o) (Step.kept W registry o)
      (fun s l => Step.Quiet W o s l) (Alike registry o) where
  both := by
    intro s t l h hquiet hkept
    cases l with
    | request id authorization route env now =>
      dsimp only [Step.Quiet] at hquiet
      rw [h.registry_left] at hquiet
      have hstep := h.request (M := M) id env now route hkept hquiet
      dsimp only [reactor]
      rw [h.registry_left, h.registry_right]
      exact hstep
    | publish tenant id => exact ⟨h.publish hquiet, rfl⟩
    | read caller id =>
      obtain ⟨halike, hsame⟩ := h.read caller id
      refine ⟨halike, ?_⟩
      by_cases hcaller : caller = o
      · exact congrArg (fun e => Option.filter (Output.seenBy o)
          (Option.map (fun e => Output.mk caller (.inr e)) e)) (hsame hcaller)
      · have hunseen : ∀ e : Option WatchEvent, (e.map fun e =>
            Output.mk (J := J) caller (.inr e)).filter (Output.seenBy o) = none := by
          intro e
          cases e with
          | none => rfl
          | some e => simp [Output.seenBy, hcaller]
        exact (hunseen _).trans (hunseen _).symm
    | close caller id => exact ⟨h.close caller id, rfl⟩
  skip := by
    intro s t l h hquiet hkept
    cases l with
    | request id authorization route env now =>
      dsimp only [Step.Quiet] at hquiet
      rw [h.registry_left] at hquiet
      dsimp only [Step.kept] at hkept
      cases hcaller : registry.callerOf W authorization with
      | none => simp [hcaller, keeps] at hkept
      | some tenant =>
        rw [hcaller] at hkept hquiet
        have hother : o ≠ some tenant := by
          rintro rfl
          simp [keeps] at hkept
        have halike := h.respond_other (M := M) id env now route hcaller hother hquiet
        dsimp only [reactor, Server.request]
        rw [h.registry_left, hcaller]
        refine ⟨halike.count_other hkept _ _, ?_⟩
        simp [Output.seenBy, Ne.symm hother]
    | publish | read | close => cases hkept

/-- The registry of two tenants, whose tokens are their names. -/
def demoRegistry : TenantRegistry :=
  ["alice".toList, "bob".toList].map fun tenant =>
    ⟨tenant, hashToken (demoWorld ⟨[], [], []⟩) tenant, .unlimited, .plaintext⟩

/-- Methods that tell nothing. -/
def demoMethods : Methods Unit where
  status _ _ := .ok ()
  files _ _ _ _ := .ok ()
  show_ _ _ _ _ := .ok (.tree ())
  showStaged _ _ _ := .ok (.tree ())
  bytesOf _ _ _ _ := .ok []
  bytesOfStaged _ _ _ := .ok []
  ls _ _ _ _ _ := .ok ()
  lsStaged _ _ := .ok ()
  logCommits _ _ _ _ := .ok ()
  diff _ _ _ _ _ := .ok ()
  testIngest _ _ _ _ _ _ := .ok ()
  badQuery _ := none
  query _ _ _ _ _ _ _ := .ok ()
  listSchemas _ _ _ := .ok ()
  readChainVerified _ _ _ := .ok ()
  uploadOpen _ _ := pure ()
  uploadWrite _ _ _ _ := pure ()
  uploadCommit _ _ _ _ _ := pure ()
  uploadAbort _ _ := pure ()

/-- A file is posted. -/
def demoPost (id : Nat) (tenant : Text) : Step :=
  .request id (some ("Bearer ".toList ++ tenant))
    (.tenant (.postFile ⟨some "omp.toml".toList, some [], none, ∅, none⟩)) demoEnv []

/-- What a run from the start shows a caller. -/
def demoSeen (o : Option Text) (steps : List Step) : List (Output Unit) :=
  ((reactor (demoWorld ⟨[], [], []⟩) demoMethods).trace (start demoRegistry true ∅) steps).filter
    (Output.seenBy o)

/-- The event that is shown, if one is. -/
def Output.event {J : Type} (out : Output J) : Option WatchEvent := out.shown.getRight?

/-- A caller opens a stream, another tenant commits, and the caller reads its stream. -/
def disclosing (authorization caller : Option Text) : List Step :=
  [.request 0 authorization .watch demoEnv [], demoPost 1 "bob".toList,
    .request 2 (some "Bearer bob".toList) (.tenant (.commit "first".toList none)) demoEnv
      "2024-05-01T10:00:01Z".toList,
    .publish "bob".toList 2, .read caller 0]

end Server

end Omp
