import Zfs.Avl.Walk
import Zfs.SpaceMap.History
import Zfs.Metaslab.Run
import Zfs.Raidz.Placement
import Zfs.Raidz.Polynomial
import Zfs.Lzjb.Compress
import Zfs.Checksum.Fletcher
import Zfs.Label.Config
import Zfs.Zil.Replay
import Zfs.Zil.Data
import Zfs.Txg.Progress
import Zfs.History.Ring
import Zfs.Rlock.Run
import Zfs.VdevCache.Coherence
import Zfs.DslDir.Transfer
import Zfs.Deleg.Allow
import Zfs.DnodeSync.FreeRange
import Zfs.Dnode.NextOffset
import Zfs.Acl.Access
import Zfs.Gang.Leak
import Zfs.Links.Run
import Zfs.Rename.Run
import Zfs.Path.Parent
import Zfs.Zrt.Handles
import Zfs.Zrt.Balance
import Zfs.Zrt.Access
import Zfs.Recv.Stream
import Zfs.Zap.Micro
import Zfs.Zil.Parse
