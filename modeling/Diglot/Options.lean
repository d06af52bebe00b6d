/-! # Options

The switches of a compile session. Most of them only decide what is recorded for a debugger.
-/

set_option autoImplicit false

namespace Diglot

/-- The switches of a compile session. -/
structure Options where
  /-- Log every emitted instruction. -/
  dumpByteCode : Bool := false
  /-- Record source locations, if one of the next three modes needs them. -/
  emitBreakpoints : Bool := false
  ideDebugMode : Bool := false
  watchTestMode : Bool := false
  deltaExecution : Bool := false
  /-- Split chains into one statement for each segment. -/
  fullSsa : Bool := false
  /-- Emit replication guides for the arguments of calls. -/
  replicationGuides : Bool := false
  /-- Let the items of a list literal take the type of the first. -/
  enforceTypeCheck : Bool := false
  /-- Do not stop at conditional jumps. -/
  emitInlineConditionalBreakpoint : Bool := false
  /-- Stop also where a made-up variable is stored. -/
  emitPopForTempBreakpoint : Bool := false
  deriving DecidableEq, Inhabited

/-- Instructions carry debug records. -/
def Options.debugRecords (o : Options) : Bool :=
  o.emitBreakpoints && (o.ideDebugMode || o.watchTestMode || o.deltaExecution)

namespace Options

/-- The names of the switches, in the order of `fields`. -/
def names : List String :=
  ["dump_byte_code", "emit_breakpoints", "ide_debug_mode", "watch_test_mode", "delta_execution",
    "full_ssa", "replication_guides", "enforce_type_check", "emit_inline_conditional_breakpoint",
    "emit_pop_for_temp_breakpoint"]

/-- The switches in the order of their declaration. -/
def fields (o : Options) : List Bool :=
  [o.dumpByteCode, o.emitBreakpoints, o.ideDebugMode, o.watchTestMode, o.deltaExecution, o.fullSsa,
    o.replicationGuides, o.enforceTypeCheck, o.emitInlineConditionalBreakpoint,
    o.emitPopForTempBreakpoint]

/-- Turns the switch of a name on; an unknown name turns nothing on. -/
def enable (o : Options) (name : String) : Options :=
  match names.idxOf name with
  | 0 => { o with dumpByteCode := true }
  | 1 => { o with emitBreakpoints := true }
  | 2 => { o with ideDebugMode := true }
  | 3 => { o with watchTestMode := true }
  | 4 => { o with deltaExecution := true }
  | 5 => { o with fullSsa := true }
  | 6 => { o with replicationGuides := true }
  | 7 => { o with enforceTypeCheck := true }
  | 8 => { o with emitInlineConditionalBreakpoint := true }
  | 9 => { o with emitPopForTempBreakpoint := true }
  | _ => o

end Options

end Diglot
