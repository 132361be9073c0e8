/-! # Log entries

What a run reports besides its result: warnings about degraded commands and silent
mixes, a summary of each mix, and the progress of each line.
-/
namespace Polyphony

/-- The importance of an entry, rising from `debug` to `warn`. -/
inductive Level where
  | debug | info | warn
deriving DecidableEq, Repr

structure LogEntry where
  level : Level
  text : String
deriving DecidableEq, Repr

abbrev Log := List LogEntry

def LogEntry.warn (text : String) : LogEntry := ⟨.warn, text⟩
def LogEntry.info (text : String) : LogEntry := ⟨.info, text⟩
def LogEntry.debug (text : String) : LogEntry := ⟨.debug, text⟩

end Polyphony
