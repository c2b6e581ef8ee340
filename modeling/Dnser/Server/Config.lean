import Dnser.Cache.Store
import Dnser.Server.Shutdown

/-!
# Configuration

The numbers a server is configured with, what `Config::validate` has to say about them, and what
`start` makes of them. Addresses, log settings and the settings of the resolver are not checked
and decide nothing here.
-/

namespace Dnser

/-- `ServerConfig`. -/
structure ServerConfig where
  workers : UInt64 := 1
  tcpIdleTimeoutSecs : UInt64 := 10
  tcpMaxConnections : UInt64 := 1000
  udpMaxInflight : UInt64 := 1000
  deriving DecidableEq

/-- `CacheConfig`. -/
structure CacheConfig where
  maxEntries : UInt64 := 10000
  reaperIntervalSecs : UInt64 := 30
  maxNegativeTtlSecs : UInt64 := 3600
  deriving DecidableEq

/-- `Config`. -/
structure Config where
  server : ServerConfig := {}
  cache : CacheConfig := {}
  deriving DecidableEq

/-- `ConfigError`, as far as `validate` makes it. -/
inductive ConfigError where
  | zeroWorkers
  | zeroTcpIdleTimeout
  | zeroTcpMaxConnections
  | zeroUdpMaxInflight
  | zeroCacheCapacity
  | zeroReaperInterval
  | zeroMaxNegativeTtl
  deriving DecidableEq

/-- `<ConfigError as Display>::fmt`. -/
def ConfigError.message : ConfigError → String
  | zeroCacheCapacity => "[cache] max_entries must be >= 1"
  | zeroReaperInterval => "[cache] reaper_interval_secs must be >= 1"
  | zeroWorkers => "[server] workers must be >= 1"
  | zeroTcpIdleTimeout => "[server] tcp_idle_timeout_secs must be >= 1"
  | zeroTcpMaxConnections => "[server] tcp_max_connections must be >= 1"
  | zeroUdpMaxInflight => "[server] udp_max_inflight must be >= 1"
  | zeroMaxNegativeTtl => "[cache] max_negative_ttl_secs must be >= 1"

/-- The field an error is about. -/
def ConfigError.value (config : Config) : ConfigError → UInt64
  | zeroWorkers => config.server.workers
  | zeroTcpIdleTimeout => config.server.tcpIdleTimeoutSecs
  | zeroTcpMaxConnections => config.server.tcpMaxConnections
  | zeroUdpMaxInflight => config.server.udpMaxInflight
  | zeroCacheCapacity => config.cache.maxEntries
  | zeroReaperInterval => config.cache.reaperIntervalSecs
  | zeroMaxNegativeTtl => config.cache.maxNegativeTtlSecs

/-- One check of `validate`. -/
def requireNonzero (v : UInt64) (e : ConfigError) : Except ConfigError Unit :=
  if v = 0 then .error e else .ok ()

/-- `Config::validate`. -/
def Config.validate (config : Config) : Except ConfigError Unit := do
  requireNonzero config.server.workers .zeroWorkers
  requireNonzero config.server.tcpIdleTimeoutSecs .zeroTcpIdleTimeout
  requireNonzero config.server.tcpMaxConnections .zeroTcpMaxConnections
  requireNonzero config.server.udpMaxInflight .zeroUdpMaxInflight
  requireNonzero config.cache.maxEntries .zeroCacheCapacity
  requireNonzero config.cache.reaperIntervalSecs .zeroReaperInterval
  requireNonzero config.cache.maxNegativeTtlSecs .zeroMaxNegativeTtl

/-- `start`: the tasks, and the cache they share. -/
def start (config : Config) (hashing : Hashing) : Server config.server.workers.toNat × Cache :=
  (Server.start _ config.server.udpMaxInflight.toNat config.server.tcpMaxConnections.toNat,
    -- `max_negative_ttl_secs as u32`
    Cache.new hashing config.cache.maxEntries config.cache.maxNegativeTtlSecs.toUInt32)

/-! ## What is accepted -/

/-- Checks that pass with `P`, or else fail with the error of a field that is zero. -/
def Checks (config : Config) (m : Except ConfigError Unit) (P : Prop) : Prop :=
  (m = .ok () ∧ P) ∨ ∃ e : ConfigError, m = .error e ∧ e.value config = 0

theorem checks_requireNonzero (config : Config) (e : ConfigError) :
    Checks config (requireNonzero (e.value config) e) (e.value config ≠ 0) := by
  unfold requireNonzero
  by_cases hv : e.value config = 0
  · exact .inr ⟨e, if_pos hv, hv⟩
  · exact .inl ⟨if_neg hv, hv⟩

theorem Checks.bind {config : Config} {m m' : Except ConfigError Unit} {P Q : Prop}
    (h : Checks config m P) (h' : Checks config m' Q) :
    Checks config (m >>= fun _ => m') (P ∧ Q) := by
  rcases h with ⟨rfl, hP⟩ | ⟨e, rfl, hv⟩
  · rcases h' with ⟨hm', hQ⟩ | herr
    · exact .inl ⟨hm', hP, hQ⟩
    · exact .inr herr
  · exact .inr ⟨e, rfl, hv⟩

/-- **An accepted configuration has no zero in a checked field, and an error names one.** -/
theorem validate_cases (config : Config) :
    (config.validate = .ok () ∧ ∀ e : ConfigError, e.value config ≠ 0) ∨
      ∃ e : ConfigError, config.validate = .error e ∧ e.value config = 0 := by
  have hcheck := checks_requireNonzero config
  have hall := (hcheck .zeroWorkers).bind <| (hcheck .zeroTcpIdleTimeout).bind <|
    (hcheck .zeroTcpMaxConnections).bind <| (hcheck .zeroUdpMaxInflight).bind <|
    (hcheck .zeroCacheCapacity).bind <| (hcheck .zeroReaperInterval).bind <|
    hcheck .zeroMaxNegativeTtl
  rcases hall with ⟨hok, h₁, h₂, h₃, h₄, h₅, h₆, h₇⟩ | herr
  · refine .inl ⟨hok, fun e => ?_⟩
    cases e <;> assumption
  · exact .inr herr

/-- The defaults are accepted. -/
example : ({} : Config).validate = .ok () := by decide

theorem nonzero_of_validate {config : Config} (h : config.validate = .ok ()) (e : ConfigError) :
    e.value config ≠ 0 := by
  rcases validate_cases config with ⟨-, hall⟩ | ⟨e', herr, -⟩
  · exact hall e
  · rw [h] at herr
    cases herr

end Dnser
