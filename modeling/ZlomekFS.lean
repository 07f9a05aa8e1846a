import ZlomekFS.Proofs.Conflict
import ZlomekFS.Proofs.Reintegrate
import ZlomekFS.Proofs.UpdateRace
import ZlomekFS.Proofs.Convergence
import ZlomekFS.Proofs.Read
import ZlomekFS.Proofs.UpdateSize
import ZlomekFS.Proofs.Versions
import ZlomekFS.Proofs.VersionInvariant
import ZlomekFS.Proofs.ReintegrateDir
import ZlomekFS.Proofs.JournalFile
import ZlomekFS.Proofs.HashFile
import ZlomekFS.Proofs.IntervalFile
import ZlomekFS.Proofs.RecursiveUnlink
import ZlomekFS.Proofs.Polling
import ZlomekFS.Proofs.Converged
import ZlomekFS.Proofs.AcceptedMessages
import ZlomekFS.Proofs.Receive
import ZlomekFS.Proofs.LockExclusion
import ZlomekFS.Proofs.Tickets
import ZlomekFS.Proofs.Requests
import ZlomekFS.Proofs.Generations
import ZlomekFS.Proofs.FhMapping
import ZlomekFS.Proofs.Names
import ZlomekFS.Proofs.FileVersions
import ZlomekFS.Proofs.OldData
import ZlomekFS.Proofs.VirtualDirs
import ZlomekFS.Proofs.IntervalQueries
import ZlomekFS.Proofs.ChunkRequests
import ZlomekFS.Proofs.ResolveConflict
import ZlomekFS.Proofs.RemoteTransfer
import ZlomekFS.Proofs.HardlinkFile
import ZlomekFS.Proofs.Readdir
import ZlomekFS.Proofs.VersionFiles
import ZlomekFS.Proofs.LocalPath
import ZlomekFS.Proofs.DentryPaths
import ZlomekFS.Proofs.ReintegratePrivilege
import ZlomekFS.Proofs.LockTwo
import ZlomekFS.Proofs.OpenDescriptors
import ZlomekFS.Proofs.RereadMutexes
import ZlomekFS.Proofs.EncodeFailure
import ZlomekFS.Proofs.UpdateFileLocks
import ZlomekFS.Proofs.VolumeTables
import ZlomekFS.Proofs.SplayTree
import ZlomekFS.Proofs.HashTable
import ZlomekFS.Proofs.UnlinkedNames
