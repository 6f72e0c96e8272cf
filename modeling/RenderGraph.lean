import RenderGraph.Stream.Word
import RenderGraph.Stream.Tag
import RenderGraph.Stream.Error
import RenderGraph.Stream.Payload
import RenderGraph.Stream.Reader
import RenderGraph.Stream.Writer
import RenderGraph.Stream.Walk
import RenderGraph.Text.Hex
import RenderGraph.Text.Utf8
import RenderGraph.Saturating
import RenderGraph.Image.Format
import RenderGraph.Image.Shape
import RenderGraph.Queue
import RenderGraph.Resource
import RenderGraph.Log
import RenderGraph.Error
import RenderGraph.Registry.Forest
import RenderGraph.Registry.Basic
import RenderGraph.Registry.Ingest
import RenderGraph.Graph
import RenderGraph.Schedule
import RenderGraph.Sync
import RenderGraph.Memory
import RenderGraph.Baked.Basic
import RenderGraph.Baked.Emit
import RenderGraph.Baked.Codec
import RenderGraph.Bake
import RenderGraph.Backend
import RenderGraph.Declaration.SlotStore
import RenderGraph.Declaration.SlotMap
import RenderGraph.Declaration.Basic
import RenderGraph.Declaration.Encode
import RenderGraph.Session
import RenderGraph.Dot
import RenderGraph.Demo
import RenderGraph.Main
import RenderGraph.Proofs.Tables
import RenderGraph.Proofs.Logged
import RenderGraph.Proofs.Placement
import RenderGraph.Proofs.Dependencies
import RenderGraph.Proofs.Levels
import RenderGraph.Proofs.Paths
import RenderGraph.Proofs.Order
import RenderGraph.Proofs.Scheduling
import RenderGraph.Proofs.Cycles
import RenderGraph.Proofs.Liveness
import RenderGraph.Proofs.Forests
import RenderGraph.Proofs.Registered
import RenderGraph.Proofs.Waits
import RenderGraph.Proofs.Frames
import RenderGraph.Proofs.Baking
import RenderGraph.Proofs.Execution
import RenderGraph.Proofs.Simulation
import RenderGraph.Proofs.Interleaving
import RenderGraph.Proofs.Precedence
import RenderGraph.Proofs.Sharing
import RenderGraph.Proofs.Failures
import RenderGraph.Proofs.ByteSize
import RenderGraph.Proofs.Words
import RenderGraph.Proofs.Text
import RenderGraph.Proofs.Records
import RenderGraph.Proofs.Codec
import RenderGraph.Proofs.Reading
import RenderGraph.Proofs.Canonical
import RenderGraph.Proofs.Streams
import RenderGraph.Proofs.Consistency
import RenderGraph.Proofs.Reach
import RenderGraph.Proofs.Boundaries
import RenderGraph.Proofs.Discovery
import RenderGraph.Proofs.Chains
import RenderGraph.Proofs.Usage
import RenderGraph.Proofs.Groups
import RenderGraph.Proofs.Layout
import RenderGraph.Proofs.FirstStates
import RenderGraph.Proofs.Calls
import RenderGraph.Proofs.Emission
import RenderGraph.Proofs.Deadlock
import RenderGraph.Proofs.Panics
import RenderGraph.Proofs.Sessions
import RenderGraph.Proofs.Executed
import RenderGraph.Proofs.Caching
import RenderGraph.Proofs.Decoded
import RenderGraph.Proofs.SlotMaps
import RenderGraph.Proofs.Declared
