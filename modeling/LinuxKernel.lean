import LinuxKernel.Bpf.HashmapRefinement
import LinuxKernel.Bpf.HashmapAppend
import LinuxKernel.Bpf.BtfDedupCanonical
import LinuxKernel.Bpf.BtfDedupCollisions
import LinuxKernel.Bpf.ReloCoreSpecMatch
import LinuxKernel.Bpf.BtfAddBtf
import LinuxKernel.Bpf.UserRingbuf
import LinuxKernel.Bpf.RingbufConsumer
import LinuxKernel.Lib.ListSortStable
import LinuxKernel.X86.E820Sanitize
import LinuxKernel.X86.MtrrLookup
import LinuxKernel.X86.MtrrBuild
import LinuxKernel.X86.KvmMtrrConsistency
import LinuxKernel.Kconfig.EliminateDups
import LinuxKernel.Kconfig.PreprocessTermination
import LinuxKernel.Kconfig.ConfdataRoundTrip
import LinuxKernel.X86.SplitMemRange
import LinuxKernel.X86.NumaMeminfo
import LinuxKernel.X86.PerfSchedExact
import LinuxKernel.Lib.MinHeap
import LinuxKernel.X86.UnwindOrc
import LinuxKernel.X86.KvmRmap
import LinuxKernel.X86.KaslrSlots
import LinuxKernel.X86.TdpIter
import LinuxKernel.Kconfig.CheckDeps
import LinuxKernel.X86.KvmPmuFilter
import LinuxKernel.X86.ResctrlRmid
import LinuxKernel.X86.BpfDispatcher
import LinuxKernel.X86.CsumPartial
import LinuxKernel.Bpf.LinkerSyms
import LinuxKernel.Kconfig.Transform
import LinuxKernel.Lib.RbtreeTraversal
import LinuxKernel.X86.E820Search
import LinuxKernel.Bpf.ResolveSize
import LinuxKernel.X86.MtrrCleanup
import LinuxKernel.X86.ResctrlMbm
import LinuxKernel.X86.XenFreeArea
import LinuxKernel.X86.CpuidDeps
import LinuxKernel.Lib.ExcludeCmds
