import Xylem.RegionTree
import Xylem.Siblings
import Xylem.ClaimOrder
import Xylem.HookDeny
import Xylem.Parents
import Xylem.DenyLedger
import Xylem.Symbols
import Xylem.Wasm
import Xylem.Trampoline
import Xylem.Chaining
import Xylem.ClaimGate
import Xylem.Coherence
import Xylem.Registration
import Xylem.CurrentRegion
import Xylem.RegionState
import Xylem.ModTable
import Xylem.ModuleDeny
import Xylem.Slots
import Xylem.Searches
import Xylem.ClaimAt
import Xylem.CallRegion
import Xylem.BareThread
import Xylem.Lib.Holdings
import Xylem.Quiet
import Xylem.Lifecycle
import Xylem.Lib.Cascade
import Xylem.UnloadTree
import Xylem.ModLists
import Xylem.ReloadPlace
import Xylem.Reports
import Xylem.Lib.Purge
import Xylem.Threads
import Xylem.FailedLoad
import Xylem.HookIds
import Xylem.Lib.Groups
import Xylem.RegionAt
import Xylem.RegionEach
import Xylem.WasmRegistry
import Xylem.InstallState
import Xylem.LastValue
import Xylem.Restore
import Xylem.ReloadOwner
import Xylem.ReloadRun
import Xylem.HookStable
import Xylem.RegionIndex
import Xylem.Lib.IntrusiveList
import Xylem.ModLinks
import Xylem.FnCacheBounds
import Xylem.WasmDefiner
import Xylem.Watch
import Xylem.UnloadListeners
import Xylem.Lib.Cursor
import Xylem.DispatchTurns
import Xylem.Lib.Custody
import Xylem.StateBlocks
import Xylem.Refcounts
import Xylem.Lib.Descent
import Xylem.HostWork
import Xylem.Lib.Tally
import Xylem.Resources
import Xylem.ContextPaths
import Xylem.Pointers
import Xylem.Confinement
import Xylem.Lib.Interning
import Xylem.InternedPaths
import Xylem.WatchThreads
import Xylem.Lib.Files
import Xylem.SearchPath
import Xylem.CopyFile
import Xylem.Lib.StructLayout
import Xylem.TypedCall
import Xylem.Bridge
