import LayerGraph.Job.Converter
import LayerGraph.Proofs.Live
import LayerGraph.Proofs.Splicing
import LayerGraph.Proofs.Ordered
import LayerGraph.Proofs.Visit
import LayerGraph.Proofs.Fixpoint
import LayerGraph.Proofs.Entries
import LayerGraph.Proofs.Attribute
import LayerGraph.Proofs.Flattening
import LayerGraph.Proofs.Forest
import LayerGraph.Proofs.Normalize
import LayerGraph.Proofs.Swish
import LayerGraph.Proofs.Reclassify
import LayerGraph.Proofs.Linking
import LayerGraph.Proofs.Layer
import LayerGraph.Proofs.Contribution
import LayerGraph.Proofs.Walk
import LayerGraph.Proofs.Conversion
import LayerGraph.Proofs.Preservation
import LayerGraph.Proofs.Fields
import LayerGraph.Proofs.Ledger
import LayerGraph.Proofs.Policy
import LayerGraph.Proofs.Account
import LayerGraph.Proofs.KnownTensors
import LayerGraph.Proofs.Operands
import LayerGraph.Proofs.Contraction
import LayerGraph.Proofs.Declared
import LayerGraph.Proofs.Unambiguous
import LayerGraph.Proofs.Layout
import LayerGraph.Proofs.Bytes
import LayerGraph.Proofs.Decoupling
import LayerGraph.Proofs.Stream
import LayerGraph.Proofs.Flags
import LayerGraph.Proofs.Conservation
import LayerGraph.Proofs.Network
import LayerGraph.Proofs.GlobalPool
import LayerGraph.Proofs.FirstLeaf
import LayerGraph.Proofs.Failure
import LayerGraph.Proofs.CustomObjects
import LayerGraph.Proofs.Calls
import LayerGraph.Proofs.KernelOrder
import LayerGraph.Proofs.Wiring
import LayerGraph.Proofs.Elision
import LayerGraph.Proofs.OperandWeights
import LayerGraph.Proofs.TensorMessage
import LayerGraph.Proofs.Exhaustion
import LayerGraph.Proofs.NormalForm
import LayerGraph.Proofs.FloatingOrder
import LayerGraph.Proofs.Upsampling
import LayerGraph.Proofs.NewOperator
import LayerGraph.Proofs.NameList
import LayerGraph.Proofs.RuleTable
import LayerGraph.Proofs.LayerList
import LayerGraph.Proofs.DistinctKeys
import LayerGraph.Proofs.WeightTable
import LayerGraph.Proofs.FileSystem
import LayerGraph.Proofs.Output
