import Phrust.Verify.StringBaseline
import Phrust.Verify.RequestInput
import Phrust.Verify.Pipeline
import Phrust.Verify.BranchControlFlow
import Phrust.Verify.RegisterPaths
import Phrust.Verify.ConstantFolding
import Phrust.Verify.CopyPropagation
import Phrust.Verify.ArrayHeap
import Phrust.Verify.SerializationRoundTrip
import Phrust.Verify.JsonEncoded
import Phrust.Verify.LoopInvariants
import Phrust.Verify.NativeSort
import Phrust.Verify.NameResolution
import Phrust.Verify.UseImports
import Phrust.Verify.Multipart
import Phrust.Verify.LiteralPooling
import Phrust.Verify.NativeOps
import Phrust.Verify.Literals
import Phrust.Verify.LoweredExpressions
import Phrust.Verify.Precedence
import Phrust.Verify.ArraySlices
import Phrust.Verify.MbStrcut
import Phrust.Verify.CallContract
