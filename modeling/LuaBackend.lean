import LuaBackend.Compile.Run
import LuaBackend.Proofs.Normalize.Effects.SingleEvaluation
import LuaBackend.Proofs.Compile.Temporaries
import LuaBackend.Proofs.Normalize.Scoping.Capture
import LuaBackend.Proofs.Normalize.Idempotence.Repeating
import LuaBackend.Proofs.Control.Preservation
import LuaBackend.Proofs.Compile.Isolation
import LuaBackend.Proofs.Nulls.Meaning
import LuaBackend.Proofs.Normalize.Compound
import LuaBackend.Proofs.Emit.BlockStructure
import LuaBackend.Proofs.Emit.LineStarts
import LuaBackend.Proofs.Nulls.Idempotence
import LuaBackend.Proofs.Emit.Declarations
import LuaBackend.Proofs.Nulls.Reports
import LuaBackend.Proofs.Emit.Continues
import LuaBackend.Proofs.Emit.GivenCode
import LuaBackend.Proofs.Emit.Names
import LuaBackend.Proofs.Normalize.Termination
import LuaBackend.Proofs.Normalize.Types
import LuaBackend.Proofs.Source.FileTable
import LuaBackend.Proofs.Temporary
import LuaBackend.Proofs.Types.Path
