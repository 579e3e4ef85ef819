import MemoryHierarchy.Lib.Bits
import MemoryHierarchy.Lib.Run
import MemoryHierarchy.Lib.FlatMemory
import MemoryHierarchy.Lib.Recency
import MemoryHierarchy.Lib.Ages
import MemoryHierarchy.Lib.Placement
import MemoryHierarchy.Lib.Linked
import MemoryHierarchy.Lib.DirectMapped
import MemoryHierarchy.Lib.Loop
import MemoryHierarchy.Lib.CText
import MemoryHierarchy.Lib.Stdio
import MemoryHierarchy.Lib.Traced
import MemoryHierarchy.Lib.Local
import MemoryHierarchy.Lib.Machine
import MemoryHierarchy.Lib.Unwinding
import MemoryHierarchy.Lib.Since
import MemoryHierarchy.Lib.Slots
import MemoryHierarchy.Lib.Legible
import MemoryHierarchy.Addr.Addr
import MemoryHierarchy.Addr.PageWalk
import MemoryHierarchy.Addr.Print
import MemoryHierarchy.Cache.Cache
import MemoryHierarchy.Cache.CacheMng
import MemoryHierarchy.Cache.Loops
import MemoryHierarchy.Cache.Access
import MemoryHierarchy.Cache.Contents
import MemoryHierarchy.Cache.Replacement
import MemoryHierarchy.Cache.System
import MemoryHierarchy.Cache.Memory
import MemoryHierarchy.Cache.ByteWrites
import MemoryHierarchy.Cache.Locality
import MemoryHierarchy.Cache.Faithful
import MemoryHierarchy.Cache.SetOrder
import MemoryHierarchy.Cache.L1
import MemoryHierarchy.Cache.L1Lru
import MemoryHierarchy.Cache.L2Lru
import MemoryHierarchy.Cache.Holes
import MemoryHierarchy.Cache.Exclusive
import MemoryHierarchy.Cache.CachedLines
import MemoryHierarchy.Cache.WriteThrough
import MemoryHierarchy.Cache.Transparency
import MemoryHierarchy.Cache.Fits
import MemoryHierarchy.Cache.Provenance
import MemoryHierarchy.Cache.Visible
import MemoryHierarchy.Cache.Dump
import MemoryHierarchy.Cache.Laws
import MemoryHierarchy.Cache.Independent
import MemoryHierarchy.Cache.Interleaving
import MemoryHierarchy.Cache.Reread
import MemoryHierarchy.Tlb.LinkedList
import MemoryHierarchy.Tlb.ListOps
import MemoryHierarchy.Tlb.Tlb
import MemoryHierarchy.Tlb.TlbLru
import MemoryHierarchy.Tlb.MoreLines
import MemoryHierarchy.Tlb.Slots
import MemoryHierarchy.Tlb.TlbHrchy
import MemoryHierarchy.Tlb.Held
import MemoryHierarchy.Tlb.Hierarchy
import MemoryHierarchy.Tlb.CrossInvalidation
import MemoryHierarchy.Tlb.L1Tables
import MemoryHierarchy.Tlb.Stale
import MemoryHierarchy.Tlb.Interleaving
import MemoryHierarchy.Text.Token
import MemoryHierarchy.Commands.Commands
import MemoryHierarchy.Commands.Container
import MemoryHierarchy.Commands.Executable
import MemoryHierarchy.Commands.Parse
import MemoryHierarchy.Commands.Read
import MemoryHierarchy.Commands.Grammar
import MemoryHierarchy.Commands.Print
import MemoryHierarchy.Commands.Checked
import MemoryHierarchy.Commands.Buffers
import MemoryHierarchy.Memory.PageFile
import MemoryHierarchy.Memory.Loader
import MemoryHierarchy.Memory.Failures
import MemoryHierarchy.Memory.Success
import MemoryHierarchy.Memory.Description
import MemoryHierarchy.Memory.DescriptionLoads
import MemoryHierarchy.Memory.Image
import MemoryHierarchy.Memory.Accepted
import MemoryHierarchy.Memory.Inside
import MemoryHierarchy.Memory.DescriptionText
import MemoryHierarchy.Memory.Dump
import MemoryHierarchy.Memory.PageText
import MemoryHierarchy.Simulator.TestCache
import MemoryHierarchy.Simulator.Flat
import MemoryHierarchy.Simulator.TestTlbHrchy
import MemoryHierarchy.Simulator.TestTlbSimple
import MemoryHierarchy.Simulator.TestMemory
import MemoryHierarchy.Simulator.TestCommands
