import Polyphony.Beats
import Polyphony.CommandLine.Folder
import Polyphony.CommandLine.Program
import Polyphony.Line.Rendering
import Polyphony.Log
import Polyphony.Main
import Polyphony.Mix.Mixdown
import Polyphony.Notation.Reading
import Polyphony.Score.Document
import Polyphony.Settings
import Polyphony.Sound.Generator
import Polyphony.Wave
import Polyphony.Yaml.Meaning
import Polyphony.Proofs.Effect.Samples
import Polyphony.Proofs.Line.History
import Polyphony.Proofs.Line.Recurrence
import Polyphony.Proofs.Line.Displacement
import Polyphony.Proofs.Notation.Grammar
import Polyphony.Proofs.Notation.Units
import Polyphony.Proofs.Notation.ScanGrammar
import Polyphony.Proofs.Notation.Joining
import Polyphony.Proofs.Score.Expansion
import Polyphony.Mix.Schedule
import Polyphony.Proofs.Mix.Peak
import Polyphony.Proofs.Mix.Schedules
import Polyphony.Effect.Guarded
import Polyphony.Proofs.Effect.Guards
import Polyphony.Line.Guarded
import Polyphony.Proofs.Line.Guards
import Polyphony.Proofs.Line.Outcome
import Polyphony.Proofs.Notation.Trouble
import Polyphony.Proofs.Score.Loading
import Polyphony.Proofs.Notation.CacheContents
import Polyphony.Proofs.Number.Arithmetic
import Polyphony.Proofs.Line.WellFormed
import Polyphony.Proofs.Mix.Silence
import Polyphony.Proofs.Wave.Writing
import Polyphony.Proofs.Wave.Decoding
import Polyphony.Proofs.Effect.Chunks
import Polyphony.Proofs.Line.Block
import Polyphony.Line.InPlace
import Polyphony.Proofs.Line.Failure
import Polyphony.Proofs.Number.Rounding
import Polyphony.Proofs.Number.Scaling
import Polyphony.Proofs.Mix.FullScale
import Polyphony.Proofs.Notation.Grouping
import Polyphony.Proofs.Score.PitchTexts
import Polyphony.Proofs.Line.Windowless
import Polyphony.Proofs.Line.Reports
import Polyphony.Proofs.Number.Bounds
import Polyphony.Proofs.Sound.Silence
