import Zeldar.HookReferences
import Zeldar.TrampolinePool
import Zeldar.InlineImpl
import Zeldar.InlineAsm
import Zeldar.HookCompose
import Zeldar.RwWindow
import Zeldar.RwOwner
import Zeldar.PatcherFlush
import Zeldar.PatcherImage
import Zeldar.ModuleFind
import Zeldar.ModuleRuns
import Zeldar.ElfReloc
import Zeldar.HookCond
import Zeldar.Armv8Encode
import Zeldar.JitFlush
import Zeldar.ImguiKeys
import Zeldar.HookTransfer
import Zeldar.A64Decode
import Zeldar.HookAddress
import Zeldar.HookLiteral
import Zeldar.HookBounds
import Zeldar.AddressSpace
import Zeldar.PadReads
import Zeldar.PcRelative
import Zeldar.Splice
import Zeldar.RenderDrawData
import Zeldar.RenderFaithful
import Zeldar.Placement
import Zeldar.ShaderBinary
import Zeldar.ShaderRoundTrip
import Zeldar.BitLens
import Zeldar.FsHelper
import Zeldar.FsLoad
import Zeldar.RwClaim
import Zeldar.RtldObject
import Zeldar.RtldResolve
import Zeldar.RtldLoad
import Zeldar.ElfHash
import Zeldar.RtldSymbol
import Zeldar.RtldBind
import Zeldar.A64Moved
import Zeldar.TrampolineStep
import Zeldar.TrampolineRun
import Zeldar.JitRuns
import Zeldar.RtldResolved
import Zeldar.RtldRelocate
import Zeldar.LazyBinding
import Zeldar.GlobalLookup
import Zeldar.Asm
import Zeldar.CacheAsm
import Zeldar.DlTrampoline
import Zeldar.Crt0
import Zeldar.SvcAsm
import Zeldar.IpcKernel
import Zeldar.ProcHandle
import Zeldar.ProcHandleRuns
import Zeldar.ImguiNvn
import Zeldar.ImguiFrames
