import Ledge.Objects.RepackSafe
import Ledge.Objects.Sha1Index
import Ledge.RefStore.WalFile
import Ledge.RefStore.Clock
import Ledge.RefStore.Aborted
import Ledge.RefStore.Linear
import Ledge.RefStore.Durable
import Ledge.Workspace.Renew
import Ledge.Workspace.Expiry
import Ledge.Workspace.Sweeper
import Ledge.Git.PushAtomic
import Ledge.Git.Shallow
import Ledge.Git.FetchFaults
import Ledge.Server.Confidential
import Ledge.Server.Revocation
import Ledge.Raft.LogWal
import Ledge.Raft.Install
import Ledge.Cluster.Conflicts
import Ledge.Cluster.Routed
import Ledge.Cluster.GcSafe
import Ledge.Cluster.WorkspaceLeases
import Ledge.Cluster.Placement
import Ledge.Server.Sync
