import Pager.Address
import Pager.BitNames
import Pager.Bytes
import Pager.Config
import Pager.Descriptors
import Pager.Disk
import Pager.Errno
import Pager.Event
import Pager.FaultFlags
import Pager.File
import Pager.FrameTable
import Pager.Geometry
import Pager.Loader
import Pager.Logger
import Pager.Machine
import Pager.Machine.Access
import Pager.Machine.Claim
import Pager.Machine.Eviction
import Pager.Machine.Fault
import Pager.Machine.Fork
import Pager.Machine.Lemmas
import Pager.Machine.Loading
import Pager.Machine.Mapping
import Pager.Machine.Release
import Pager.Mutex
import Pager.Page
import Pager.PageTable
import Pager.Panic
import Pager.Proofs.Accessing
import Pager.Proofs.Asking
import Pager.Proofs.BufferChecks
import Pager.Proofs.Buffers
import Pager.Proofs.Bystanders
import Pager.Proofs.Changes
import Pager.Proofs.Claiming
import Pager.Proofs.Clean
import Pager.Proofs.Clearing
import Pager.Proofs.Clock
import Pager.Proofs.Composing
import Pager.Proofs.Conservation
import Pager.Proofs.Consistency
import Pager.Proofs.Contents
import Pager.Proofs.Copying
import Pager.Proofs.Deeds
import Pager.Proofs.Devices
import Pager.Proofs.Ends
import Pager.Proofs.Evicting
import Pager.Proofs.Evolving
import Pager.Proofs.FailedClaims
import Pager.Proofs.Faulting
import Pager.Proofs.FileBytes
import Pager.Proofs.FileRuns
import Pager.Proofs.FirstFit
import Pager.Proofs.Flat
import Pager.Proofs.Flushing
import Pager.Proofs.Forking
import Pager.Proofs.FrameOwners
import Pager.Proofs.Growing
import Pager.Proofs.Hidden
import Pager.Proofs.Holds
import Pager.Proofs.Inherited
import Pager.Proofs.Invariance
import Pager.Proofs.Invisible
import Pager.Proofs.Keeping
import Pager.Proofs.KernelBoundary
import Pager.Proofs.Laying
import Pager.Proofs.Layout
import Pager.Proofs.Leads
import Pager.Proofs.Ledger
import Pager.Proofs.Lifetimes
import Pager.Proofs.MappedFiles
import Pager.Proofs.Mapping
import Pager.Proofs.Mappings
import Pager.Proofs.Mirroring
import Pager.Proofs.Orphans
import Pager.Proofs.Panics
import Pager.Proofs.PartialCopies
import Pager.Proofs.Passing
import Pager.Proofs.Pending
import Pager.Proofs.RamBytes
import Pager.Proofs.ReadOnly
import Pager.Proofs.Releasing
import Pager.Proofs.Remapping
import Pager.Proofs.Retrying
import Pager.Proofs.Rollback
import Pager.Proofs.Runs
import Pager.Proofs.SecondChance
import Pager.Proofs.SegmentWindows
import Pager.Proofs.Shortages
import Pager.Proofs.SlotBytes
import Pager.Proofs.SlotContents
import Pager.Proofs.SlotHistories
import Pager.Proofs.SlotOwners
import Pager.Proofs.Slots
import Pager.Proofs.Sound
import Pager.Proofs.StackWindow
import Pager.Proofs.Staying
import Pager.Proofs.TableContents
import Pager.Proofs.Teardown
import Pager.Proofs.Transfers
import Pager.Proofs.Unasked
import Pager.Proofs.Verdicts
import Pager.Proofs.WriteBacks
import Pager.Ram
import Pager.Segment
import Pager.Space
import Pager.Step
import Pager.Store
import Pager.Swap
import Pager.Swap.Bitmap
import Pager.Trap
