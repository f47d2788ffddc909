import TimingDiagram.Figure.Verify
import TimingDiagram.Log.Message
import TimingDiagram.Log.Session
import TimingDiagram.Log.Transcript
import TimingDiagram.Markup.Svg
import TimingDiagram.Proofs.Document.Compiled
import TimingDiagram.Proofs.Document.Loading
import TimingDiagram.Proofs.Document.Mapping
import TimingDiagram.Proofs.Document.Nesting
import TimingDiagram.Proofs.Document.Outline
import TimingDiagram.Proofs.Document.Recognition
import TimingDiagram.Proofs.Document.Rows
import TimingDiagram.Proofs.Document.Soundness
import TimingDiagram.Proofs.Document.Traversal
import TimingDiagram.Proofs.Document.Walk
import TimingDiagram.Proofs.Edge.Broken
import TimingDiagram.Proofs.Edge.Course
import TimingDiagram.Proofs.Edge.Pattern
import TimingDiagram.Proofs.Edge.Printing
import TimingDiagram.Proofs.Edge.Registry
import TimingDiagram.Proofs.Edge.Reversal
import TimingDiagram.Proofs.Figure.BrokenEdges
import TimingDiagram.Proofs.Figure.Capacity
import TimingDiagram.Proofs.Figure.Checks
import TimingDiagram.Proofs.Figure.ClockLines
import TimingDiagram.Proofs.Figure.ClockMarks
import TimingDiagram.Proofs.Figure.Emission
import TimingDiagram.Proofs.Figure.Extent
import TimingDiagram.Proofs.Figure.Interchange
import TimingDiagram.Proofs.Figure.Inventory
import TimingDiagram.Proofs.Figure.Neutrality
import TimingDiagram.Proofs.Figure.Parts
import TimingDiagram.Proofs.Figure.Pruning
import TimingDiagram.Proofs.Figure.Rendering
import TimingDiagram.Proofs.Figure.Strokes
import TimingDiagram.Proofs.Figure.TokenEdges
import TimingDiagram.Proofs.Figure.Trace
import TimingDiagram.Proofs.Figure.Waveform
import TimingDiagram.Proofs.Layout.Axis
import TimingDiagram.Proofs.Layout.Block
import TimingDiagram.Proofs.Layout.Canvas
import TimingDiagram.Proofs.Layout.Captions
import TimingDiagram.Proofs.Layout.Columns
import TimingDiagram.Proofs.Layout.Heights
import TimingDiagram.Proofs.Layout.Loop
import TimingDiagram.Proofs.Layout.Outline
import TimingDiagram.Proofs.Layout.Placement
import TimingDiagram.Proofs.Layout.Position
import TimingDiagram.Proofs.Layout.Pulses
import TimingDiagram.Proofs.Layout.Segments
import TimingDiagram.Proofs.Layout.Shown
import TimingDiagram.Proofs.Layout.Shrinking
import TimingDiagram.Proofs.Log.History
import TimingDiagram.Proofs.Markup.Figure
import TimingDiagram.Proofs.Number.Bounds
import TimingDiagram.Proofs.Number.Exact
import TimingDiagram.Proofs.Number.Firm
import TimingDiagram.Proofs.Number.Numerals
import TimingDiagram.Proofs.Options.Config
import TimingDiagram.Proofs.Sample.Rendering
import TimingDiagram.Proofs.Value.Doubles
import TimingDiagram.Proofs.Value.Trains
import TimingDiagram.Proofs.Wave.Attachments
import TimingDiagram.Proofs.Wave.Batches
import TimingDiagram.Proofs.Wave.Borders
import TimingDiagram.Proofs.Wave.Clipping
import TimingDiagram.Proofs.Wave.Lexing
import TimingDiagram.Proofs.Wave.LookBack
import TimingDiagram.Proofs.Wave.Meaning
import TimingDiagram.Proofs.Wave.Repeats
import TimingDiagram.Proofs.Wave.Runs
import TimingDiagram.Proofs.Wave.Spelling
import TimingDiagram.Proofs.Wave.SquareWave
import TimingDiagram.Proofs.Wave.Tiling
import TimingDiagram.Sample.Request
