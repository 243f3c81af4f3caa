import Omp.World

/-!
# Configuration

What ingest reads of the versioned `omp.toml`, of the `.probe.toml` next to a probe, and of a
tenant's quotas.

## Main definitions

* `RepoConfig.parse`, `parseMaxInputBytes` : the two documents.
* `Quotas.clampProbe` : the limits a probe runs under.
-/

namespace Omp

open Lib

variable (W : World)

/-! ### `omp.toml` -/

/-- What happens to a file that no schema matches. -/
inductive DefaultSchemaPolicy where
  | reject | minimal
  deriving DecidableEq

/-- The limits a probe runs under. -/
structure ProbeLimits where
  memoryMb : Nat
  fuel : Nat
  wallClockS : Nat

/-- What ingest reads of `omp.toml`. -/
structure RepoConfig where
  defaultSchemaPolicy : DefaultSchemaPolicy
  probes : ProbeLimits
  chunkSizeBytes : Nat

namespace RepoConfig

/-- `RepoConfig::default`. -/
def default : RepoConfig where
  defaultSchemaPolicy := .reject
  probes := ⟨64, 1000000000, 10⟩
  chunkSizeBytes := 16 * 1024 * 1024

/-- The policy a name stands for. -/
def parsePolicy : Option Text → Except OmpError DefaultSchemaPolicy
  | none => .ok default.defaultSchemaPolicy
  | some p =>
    if p = "reject".toList then .ok .reject
    else if p = "minimal".toList then .ok .minimal
    else .error (.schemaValidation
      ("omp.toml: default_schema_policy must be 'reject' or 'minimal', got ".toList ++
        W.debugStr p))

/-- The chunk size, which is not zero. -/
def parseChunkSize : Option Nat → Except OmpError Nat
  | none => .ok default.chunkSizeBytes
  | some c =>
    if c = 0 then .error (.schemaValidation
      "omp.toml: storage.chunk_size_bytes must be > 0".toList)
    else .ok c

/-- `RepoConfig::parse`. -/
def parse (bytes : Bytes) : Except OmpError RepoConfig :=
  if bytes.isEmpty then .ok default
  else match fromUtf8 bytes with
    | none => .error (.schemaValidation "omp.toml not UTF-8".toList)
    | some s => match W.rawConfig s with
      | .error e => .error (.schemaValidation ("omp.toml: ".toList ++ e))
      | .ok raw => do
        let policy ← parsePolicy W raw.defaultSchemaPolicy
        let chunkSize ← parseChunkSize raw.chunkSizeBytes
        .ok ⟨policy, ⟨raw.memoryMb.getD default.probes.memoryMb,
          raw.fuel.getD default.probes.fuel, raw.wallClockS.getD default.probes.wallClockS⟩,
          chunkSize⟩

variable {W} in
/-- **Chunks are not empty.** -/
theorem chunkSizeBytes_pos {bytes : Bytes} {config : RepoConfig} (h : parse W bytes = .ok config) :
    0 < config.chunkSizeBytes := by
  have hpos {o : Option Nat} {n : Nat} (hn : parseChunkSize o = .ok n) : 0 < n := by
    unfold parseChunkSize at hn
    split at hn
    · cases hn
      decide
    · split_ifs at hn
      cases hn
      omega
  unfold parse at h
  split_ifs at h
  · cases h
    decide
  · split at h
    · cases h
    · split at h
      · cases h
      · obtain ⟨policy, -, h⟩ := except_bind_eq_ok.1 h
        obtain ⟨n, hn, h⟩ := except_bind_eq_ok.1 h
        cases h
        exact hpos hn

end RepoConfig

/-! ### `.probe.toml` -/

/-- `ProbeManifest::parse`, of which ingest uses the cap on the input. -/
def parseMaxInputBytes (bytes : Bytes) : Except OmpError (Option Nat) :=
  match fromUtf8 bytes with
  | none => .error (.schemaValidation "probe.toml is not UTF-8".toList)
  | some s => match W.rawProbe s with
    | .error e => .error (.schemaValidation ("probe.toml: ".toList ++ e))
    | .ok raw => .ok raw.maxInputBytes

/-! ### Quotas -/

/-- What the operations here read of a tenant's quotas. -/
structure Quotas where
  bytes : Option Nat
  objectCount : Option Nat
  probeFuelPerRequest : Option Nat
  wallClockSPerRequest : Option Nat

namespace Quotas

/-- `Quotas::unlimited`. -/
def unlimited : Quotas := ⟨none, none, none, none⟩

/-- A limit, and the tenant's if it is tighter. -/
def clamp (limit : Nat) : Option Nat → Nat
  | some cap => min limit cap
  | none => limit

/-- `clamp_probe`. -/
def clampProbe (q : Quotas) (fromRepo : ProbeLimits) : ProbeLimits :=
  ⟨fromRepo.memoryMb, clamp fromRepo.fuel q.probeFuelPerRequest,
    clamp fromRepo.wallClockS q.wallClockSPerRequest⟩

end Quotas

end Omp
