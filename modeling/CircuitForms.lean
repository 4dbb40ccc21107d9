import CircuitForms.Command.Session
import CircuitForms.Dag.Builder
import CircuitForms.Main
import CircuitForms.Proofs.Dag.Strand
import CircuitForms.Proofs.Dag.Edit
import CircuitForms.Proofs.Dag.Sound
import CircuitForms.Proofs.Dag.History
import CircuitForms.Proofs.Dag.Layer
import CircuitForms.Proofs.Digraph.Walk
import CircuitForms.Proofs.Dag.Admitted
import CircuitForms.Proofs.Vertex.Wiring
import CircuitForms.Proofs.Grid.Round
import CircuitForms.Proofs.Grid.Laid
import CircuitForms.Proofs.Grid.Layering
import CircuitForms.Proofs.Grid.Progress
import CircuitForms.Proofs.Grid.Layable
import CircuitForms.Proofs.Json.Token
import CircuitForms.Proofs.Json.Written
import CircuitForms.Proofs.Number.Shortest
import CircuitForms.Proofs.Json.Spelling
import CircuitForms.Proofs.Json.Reread
import CircuitForms.Proofs.Json.Readable
import CircuitForms.Proofs.Document.Bit
import CircuitForms.Proofs.Document.Operation
import CircuitForms.Proofs.Document.Descriptor
import CircuitForms.Proofs.Document.Listing
import CircuitForms.Proofs.Measurement.Codec
import CircuitForms.Proofs.Grid.Reading
import CircuitForms.Proofs.Convert.ReadOff
import CircuitForms.Proofs.Convert.Carried
import CircuitForms.Proofs.Convert.Lines
import CircuitForms.Proofs.Convert.Operands
import CircuitForms.Proofs.Convert.RoundTrip
import CircuitForms.Proofs.Convert.Layers
import CircuitForms.Proofs.Convert.ClassicalWires
import CircuitForms.Proofs.Dag.Ordered
import CircuitForms.Proofs.Dag.Depth
import CircuitForms.Proofs.Dag.Relisted
import CircuitForms.Proofs.Dag.Entered
import CircuitForms.Proofs.Dag.Unguarded
import CircuitForms.Proofs.Dag.Reordered
import CircuitForms.Proofs.Convert.Assembled
import CircuitForms.Proofs.Convert.Pins
import CircuitForms.Proofs.Dag.Inventory
import CircuitForms.Proofs.Convert.WireGraph
import CircuitForms.Proofs.Digraph.Search
import CircuitForms.Proofs.Dag.Integrity
import CircuitForms.Proofs.Convert.BroughtBack
import CircuitForms.Proofs.Convert.LineReading
import CircuitForms.Proofs.Vertex.Renumbering
import CircuitForms.Proofs.Grid.Renumbered
import CircuitForms.Proofs.Convert.Renumbered
import CircuitForms.Proofs.Dag.Exchanged
import CircuitForms.Proofs.Convert.Exchanged
import CircuitForms.Proofs.Convert.Naming
import CircuitForms.Proofs.Convert.Standing
import CircuitForms.Proofs.Convert.Redescribed
import CircuitForms.Proofs.Convert.CarriedBack
import CircuitForms.Proofs.Measurement.ReadBack
import CircuitForms.Proofs.Vertex.Listed
import CircuitForms.Proofs.Vertex.Pairing
import CircuitForms.Proofs.Convert.Reopened
import CircuitForms.Proofs.Dag.Refused
import CircuitForms.Proofs.Convert.Supported
import CircuitForms.Proofs.Dag.Steps
import CircuitForms.Proofs.Convert.Trails
import CircuitForms.Proofs.Command.Verdict
import CircuitForms.Proofs.Convert.Accounted
import CircuitForms.Proofs.Convert.LaidOut
import CircuitForms.Proofs.Convert.Sizes
import CircuitForms.Proofs.Convert.Registers
import CircuitForms.Proofs.Text.Cut
import CircuitForms.Proofs.Catalog.Lookup
import CircuitForms.Proofs.Coupling.Relation
import CircuitForms.Proofs.Coupling.PairList
