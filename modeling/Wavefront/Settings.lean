/-
Settings of a run (`EngineConfig`): how many nodes work at once, how often and after which delay a
failed node is tried again, and how long one attempt may take.
-/

set_option autoImplicit false

namespace Wavefront

/-- The settings of a run, `EngineConfig`, with its defaults. Times are in milliseconds. -/
structure Settings where
  /-- Attempts of a node after its first one. -/
  maxRetries : UInt32 := 2
  /-- The time limit of an attempt for nodes that have none of their own. -/
  defaultTimeoutMs : UInt64 := 30000
  /-- Nodes at work at once. -/
  concurrency : UInt64 := 4
  /-- Keep the final context in the trace? -/
  enableTrace : Bool := true
  /-- The delay before the first retry. -/
  retryBaseDelayMs : UInt64 := 100
  /-- Elements of a loop or reduce step at work at once, for steps that do not say. -/
  loopConcurrency : UInt64 := 1
deriving DecidableEq

/-- Why settings cannot be used. -/
inductive SettingsFault where
  | maxRetries (got : UInt32)
  | concurrency (got : UInt64)
  | defaultTimeout
  | loopConcurrency
deriving DecidableEq

namespace Settings

/-- The most retries that a node may have: `MAX_RETRIES_LIMIT`. -/
def maxRetriesLimit : Nat := 5

/-- The most nodes that may work at once: `MAX_CONCURRENCY`. -/
def maxConcurrency : Nat := 10

/-- The first fault of the settings, if there is one, in the order in which `validate` looks. -/
def fault? (s : Settings) : Option SettingsFault :=
  if maxRetriesLimit < s.maxRetries.toNat then some (.maxRetries s.maxRetries)
  else if s.concurrency = 0 ∨ maxConcurrency < s.concurrency.toNat then
    some (.concurrency s.concurrency)
  else if s.defaultTimeoutMs = 0 then some .defaultTimeout
  else if s.loopConcurrency = 0 then some .loopConcurrency
  else none

/-! ## Delays before retries -/

/-- The largest word. -/
def wordMax : Nat := UInt64.size - 1

/-- The number as a word, the largest one if it does not fit. -/
def saturate (n : Nat) : UInt64 := UInt64.ofNat (min n wordMax)

/-- A power of two as a word, the largest one if it does not fit: `saturating_pow`. -/
def powerOfTwo (n : Nat) : UInt64 := if n < 64 then UInt64.ofNat (1 <<< n) else saturate wordMax

/-- The delay before a retry, counted from 1: the base delay, doubled for every retry before
(`backoff_delay`). The exponent is taken from the retry by a subtraction that stops at zero. -/
def backoffMs (s : Settings) (retry : UInt32) : UInt64 :=
  saturate (s.retryBaseDelayMs.toNat * (powerOfTwo (retry.toNat - 1)).toNat)

end Settings

/-- The text of a fault, as the message of a configuration error carries it. -/
def SettingsFault.message : SettingsFault → String
  | maxRetries got =>
      "max_retries must be between 0 and " ++ toString Settings.maxRetriesLimit ++ ", got "
        ++ toString got
  | concurrency got =>
      "concurrency must be between 1 and " ++ toString Settings.maxConcurrency ++ ", got "
        ++ toString got
  | defaultTimeout => "default_timeout_ms must be greater than 0"
  | loopConcurrency => "loop_concurrency must be greater than 0"

end Wavefront
