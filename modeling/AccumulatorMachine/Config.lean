/-!
# Machine configurations

How many cells a machine has, and how long the result of `POW` may get. A configuration
is a plain pair, valid or not; `Config.validate` is the one place that refuses, and a
machine is only made from a configuration that it accepts.
-/

namespace AccumulatorMachine

/-- Why a configuration is refused. -/
inductive ConfigError where
  | zeroMemory
  /-- A limit of no bits would refuse every result. -/
  | zeroPowLimit
  deriving DecidableEq

def ConfigError.message : ConfigError → String
  | zeroMemory => "memory_size must be at least 1"
  | zeroPowLimit => "max_pow_bits must be at least 1"

/-- The size of the memory and the guard on `POW`. -/
structure Config where
  /-- The number of cells; every address is reduced modulo it. -/
  memorySize : Nat := 1024
  /-- The greatest bit length of a `POW` result; without it results are unbounded. -/
  powLimit : Option Nat := none
  deriving DecidableEq

namespace Config

/-- Memory is looked at before the limit. -/
def validate (config : Config) : Except ConfigError Unit :=
  if config.memorySize = 0 then .error .zeroMemory
  else if config.powLimit = some 0 then .error .zeroPowLimit
  else .ok ()

/-- A configuration of a given size and limit, if it is valid. -/
def checked (memorySize : Nat) (powLimit : Option Nat) : Except ConfigError Config :=
  (validate ⟨memorySize, powLimit⟩).map fun () => ⟨memorySize, powLimit⟩

/-- The same limit with another memory; the whole result is checked. -/
def withMemorySize (config : Config) (memorySize : Nat) : Except ConfigError Config :=
  checked memorySize config.powLimit

/-- The same memory with another limit; the whole result is checked. -/
def withPowLimit (config : Config) (powLimit : Option Nat) : Except ConfigError Config :=
  checked config.memorySize powLimit

def text (config : Config) : String :=
  match config.powLimit with
  | some bits => s!"{config.memorySize} cells, POW limit {bits} bits"
  | none => s!"{config.memorySize} cells, unbounded POW"

/-- What `validate` accepts: at least one cell, and no limit of zero bits. -/
structure Valid (config : Config) : Prop where
  memorySize_pos : 0 < config.memorySize
  powLimit_ne : config.powLimit ≠ some 0

theorem validate_eq_ok_iff (config : Config) : config.validate = .ok () ↔ config.Valid := by
  unfold validate
  constructor
  · intro h
    split at h
    · contradiction
    · split at h
      · contradiction
      · exact ⟨by omega, by assumption⟩
  · intro hvalid
    have hpos := hvalid.memorySize_pos
    simp [hvalid.powLimit_ne, show config.memorySize ≠ 0 by omega]

/-- A checked configuration is the one that was asked for, and it is valid. -/
theorem checked_eq_ok_iff {memorySize : Nat} {powLimit : Option Nat} {config : Config} :
    checked memorySize powLimit = .ok config ↔ config = ⟨memorySize, powLimit⟩ ∧ config.Valid := by
  have hkey := validate_eq_ok_iff ⟨memorySize, powLimit⟩
  unfold checked
  cases hverdict : validate ⟨memorySize, powLimit⟩ with
  | ok =>
      have hvalid := hkey.mp hverdict
      constructor
      · rintro ⟨⟩
        exact ⟨rfl, hvalid⟩
      · rintro ⟨rfl, _⟩
        rfl
  | error cause =>
      constructor
      · rintro ⟨⟩
      · rintro ⟨rfl, hvalid⟩
        rw [hkey.mpr hvalid] at hverdict
        contradiction

end Config

end AccumulatorMachine
