/-!
# Fault classes

Every reported failure belongs to at most one class. A class has a short code, a name and a sentence;
construction faults mean a broken setup, all others mean that a region should be left to the
interpreter.
-/

namespace Dynarec

inductive Fault where
  | badPageSize
  | badCapacity
  | notSupported
  | allocFailed
  | unknownConfig
  | capacityExceeded
  | codeBufferOverflow
  | mapFull
  | addressOutOfRange
  | blockTerminated
  | typecheck
  | runtime
  | badRegister
  | unsupportedInstruction
  | unsupportedDivision
  | unsupportedCall
  | unboundRegister
deriving DecidableEq, Inhabited

namespace Fault

def all : List Fault :=
  [badPageSize, badCapacity, notSupported, allocFailed, unknownConfig, capacityExceeded,
    codeBufferOverflow, mapFull, addressOutOfRange, blockTerminated, typecheck, runtime,
    badRegister, unsupportedInstruction, unsupportedDivision, unsupportedCall, unboundRegister]

def code : Fault → String
  | badPageSize => "C1"
  | badCapacity => "C2"
  | notSupported => "C3"
  | allocFailed => "C4"
  | unknownConfig => "C5"
  | capacityExceeded => "K1"
  | codeBufferOverflow => "K2"
  | mapFull => "K3"
  | addressOutOfRange => "K4"
  | blockTerminated => "G1"
  | typecheck => "G2"
  | runtime => "G3"
  | badRegister => "G4"
  | unsupportedInstruction => "U1"
  | unsupportedDivision => "U2"
  | unsupportedCall => "U3"
  | unboundRegister => "U4"

def name : Fault → String
  | badPageSize => "BadPageSize"
  | badCapacity => "BadCapacity"
  | notSupported => "NotSupported"
  | allocFailed => "AllocFailed"
  | unknownConfig => "UnknownConfig"
  | capacityExceeded => "CapacityExceeded"
  | codeBufferOverflow => "CodeBufferOverflow"
  | mapFull => "MapFull"
  | addressOutOfRange => "AddressOutOfRange"
  | blockTerminated => "BlockTerminated"
  | typecheck => "Typecheck"
  | runtime => "Runtime"
  | badRegister => "BadRegister"
  | unsupportedInstruction => "UnsupportedInstruction"
  | unsupportedDivision => "UnsupportedDivision"
  | unsupportedCall => "UnsupportedCall"
  | unboundRegister => "UnboundRegister"

def sentence : Fault → String
  | badPageSize => "Code cache page size must be a power of two of at least 4096 bytes."
  | badCapacity => "Backend and cache capacities must be positive."
  | notSupported => "Native execution is not available on this platform."
  | allocFailed => "Executable memory could not be allocated."
  | unknownConfig => "Configuration value is out of range."
  | capacityExceeded => "Backend block, instruction or parameter arena is full."
  | codeBufferOverflow => "Code buffer has insufficient capacity for the assembled graph."
  | mapFull => "Code cache map bucket has no free slot."
  | addressOutOfRange => "Address is outside the pages covered by the code cache."
  | blockTerminated => "Instruction appended after the block terminator."
  | typecheck => "IR graph failed type checking."
  | runtime => "IR execution failed."
  | badRegister => "Register id is outside the backend register table."
  | unsupportedInstruction => "Guest instruction cannot be recompiled."
  | unsupportedDivision => "Division is only supported at 32 and 64 bits."
  | unsupportedCall => "Call target has no native entry point."
  | unboundRegister => "Register has no host binding."

/-- Code, bar, name, colon, sentence. -/
def text (f : Fault) : String :=
  f.code ++ "|" ++ f.name ++ ": " ++ f.sentence

/-- A detail in front of the class text. -/
def under (f : Fault) (detail : String) : String :=
  detail ++ ": " ++ f.text

def ofName? (s : String) : Option Fault :=
  all.find? (fun f => f.name == s)

def isConstruction : Fault → Bool
  | badPageSize | badCapacity | notSupported | allocFailed | unknownConfig => true
  | _ => false

end Fault

/-- A failure as it is reported: its class, if it has one, and its full text. -/
structure Report where
  fault : Option Fault
  text : String
deriving DecidableEq, Inhabited

namespace Report

def ofFault (f : Fault) : Report :=
  ⟨some f, f.text⟩

def plain (text : String) : Report :=
  ⟨none, text⟩

/-- Puts context in front of the text and keeps the class. -/
def context (label : String) (r : Report) : Report :=
  ⟨r.fault, label ++ ": " ++ r.text⟩

/-- Puts a remark behind the text and keeps the class. -/
def remark (note : String) (r : Report) : Report :=
  ⟨r.fault, r.text ++ ": " ++ note⟩

/-- Whether the region should be left to the interpreter: every failure but a broken setup. -/
def isFallback (r : Report) : Bool :=
  match r.fault with
  | some f => !f.isConstruction
  | none => true

end Report

/-- Why an operation gave no result: a cause that is reported, or an abort on input that its callers
must not pass. -/
inductive Failure (ε : Type) where
  | error (e : ε)
  | abort (message : Option String)
deriving DecidableEq

namespace Failure

variable {ε δ : Type}

def map (f : ε → δ) : Failure ε → Failure δ
  | error e => error (f e)
  | abort message => abort message

end Failure

end Dynarec
