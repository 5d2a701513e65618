import Pequin.Backend.Division
import Pequin.Ram.Completeness
import Pequin.Waksman.Constraints
import Pequin.Frontend.Coherence
import Pequin.Flatten.Simulation
import Pequin.Frontend.Magic
import Pequin.Frontend.Split
import Pequin.Frontend.Inference
import Pequin.Frontend.Mux
import Pequin.Backend.Solve
import Pequin.Backend.Split
import Pequin.Backend.CompareFloat
import Pequin.Merkle.Boolean
import Pequin.Merkle.RamGet
import Pequin.Cstd.FixedPoint
import Pequin.Cstd.HashMap
import Pequin.Cstd.Gmp
import Pequin.ExternalSort.Chunks
import Pequin.Avl.Map
import Pequin.Flatten.Emission
import Pequin.Waksman.Size
import Pequin.Storage.AsyncStore
import Pequin.Storage.CompressedIndex
import Pequin.Storage.DbBlockStore
import Pequin.Frontend.Print
import Pequin.Merkle.RamRun
import Pequin.Backend.Matrices
