import CloudFile.Fs.PathResolution
import CloudFile.Diff.Exact
import CloudFile.Merge.Independent
import CloudFile.Gc.Report
import CloudFile.Gc.Safety
import CloudFile.Write.Entries
import CloudFile.Write.Rewrite
import CloudFile.Write.WellTyped
import CloudFile.Publish.GenCommit
import CloudFile.Publish.Upload
import CloudFile.Edit.Fenced
import CloudFile.Write.Edited
import CloudFile.Edit.Publication
import CloudFile.Diff.Renames
import CloudFile.Edit.Fence
import CloudFile.Edit.Protection
import CloudFile.Acl.Changes
import CloudFile.Acl.Proof
import CloudFile.Acl.TwoPhase
import CloudFile.Acl.Identity
import CloudFile.FileOp.Seam
import CloudFile.Lib.Framing
import CloudFile.Sync.RecvFs
import CloudFile.Store.Backend
import CloudFile.Sync.Uploads
import CloudFile.Diff.Walk
import CloudFile.Sync.SendList
import CloudFile.Sync.CheckBlocks
import CloudFile.Diff.Folded
import CloudFile.Sync.InvalidPath
import CloudFile.Delete.ChangeSet
import CloudFile.Delete.Model
import CloudFile.FileOp.SubjectPaths
import CloudFile.Delete.Subjects
import CloudFile.FileOp.Lifecycle
import CloudFile.Gc.Reuse
import CloudFile.Publish.Metadata
import CloudFile.Edit.Cdc
import CloudFile.Virtual.Missing
import CloudFile.Lib.GLibPath
import CloudFile.Publish.IfHead
import CloudFile.Move.Model
import CloudFile.Move.IntoItself
import CloudFile.Move.Content
import CloudFile.Delete.Exact
import CloudFile.Access.Model
import CloudFile.Lib.Cascade
import CloudFile.Access.Agree
import CloudFile.History.Trash
import CloudFile.Lib.Worklist
import CloudFile.History.Traverse
import CloudFile.History.FileInfo
import CloudFile.History.Revisions
import CloudFile.History.Paged
import CloudFile.Lib.Lru
import CloudFile.Storage.Routing
import CloudFile.Revert.Model
import CloudFile.Revert.Kept
import CloudFile.Revert.Parent
import CloudFile.Revert.Restored
import CloudFile.Write.Frame
import CloudFile.FileOp.Range
import CloudFile.FileOp.Resumable
import CloudFile.Notif.Notify
import CloudFile.Access.DirPage
import CloudFile.Fs.Rabin
import CloudFile.Publish.EditRepo
