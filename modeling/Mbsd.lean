import Mbsd.Crypto.Idgen
import Mbsd.Dev.Ofw.Reg
import Mbsd.Kern.KernDescrip.Runs
import Mbsd.Kern.KernTimeout.Early
import Mbsd.Kern.KernTimeout.Left
import Mbsd.Kern.KernTimeout.Refines
import Mbsd.Kern.MbufChain.Refines
import Mbsd.Kern.SubrBlist.Copy
import Mbsd.Kern.SubrBlist.Gapfind
import Mbsd.Kern.SubrBlist.Memory
import Mbsd.Kern.SubrExtent.Constraints
import Mbsd.Kern.SubrExtent.Free
import Mbsd.Kern.SysPipe.Steps
import Mbsd.Kern.SysvMsg.Copies
import Mbsd.Kern.SysvMsg.Runs
import Mbsd.Kern.SysvSem.ExactUndo
import Mbsd.Kern.SysvSem.Wakeup
import Mbsd.Kern.TtySubr.Fifo
import Mbsd.Kern.VfsLockf.Deadlock
import Mbsd.Msdosfs.Disk
import Mbsd.Msdosfs.Dostime
import Mbsd.Msdosfs.Search
import Mbsd.Msdosfs.Winname
import Mbsd.Net.Art.Readers
import Mbsd.Net.Art.Refcounts
import Mbsd.Net.Bpf.Layout
import Mbsd.Net.Bpf.Safety
import Mbsd.Net.IfWg.Runs
import Mbsd.Net.Pf.Patch
import Mbsd.Net.Pf.SkipSteps
import Mbsd.Net.PfLb.Choice
import Mbsd.Net.PfNorm.AnyOrder
import Mbsd.Net.SlCompress.Line
import Mbsd.Net.Toeplitz
import Mbsd.Net.WgNoise.Confirm
import Mbsd.Net.WgNoise.Failure
import Mbsd.Net.WgNoise.Nonces
import Mbsd.Net80211.InputBa.Slide
import Mbsd.Netinet.IpEsp.ReplayRuns
import Mbsd.Netinet.IpId
import Mbsd.Netinet.IpInput.Complete
import Mbsd.Netinet.TcpInput.SackBounds
import Mbsd.Netinet.TcpInput.SackReport
import Mbsd.Netinet.TcpInput.Stream
import Mbsd.Scripts.ValidateIntent
import Mbsd.Ufs.FfsAlloc.Inodes
import Mbsd.Uvm.UvmAmap.Runs
import Mbsd.Uvm.UvmAddr
import Mbsd.Uvm.UvmMap.AddrTree
