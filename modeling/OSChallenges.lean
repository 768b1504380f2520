import OSChallenges.Library.Runs
import OSChallenges.Threads.Model
import OSChallenges.Threads.Steps
import OSChallenges.Threads.Bookkeeping
import OSChallenges.Threads.Contexts
import OSChallenges.Threads.Waiting
import OSChallenges.Threads.Mutex
import OSChallenges.Threads.MutexFlag
import OSChallenges.Threads.Barrier
import OSChallenges.Library.Program
import OSChallenges.Storage.Model
import OSChallenges.Storage.Pages
import OSChallenges.Storage.Effects
import OSChallenges.Storage.Registry
import OSChallenges.Storage.Closed
import OSChallenges.Library.References
import OSChallenges.Storage.Sharing
import OSChallenges.Storage.Owners
import OSChallenges.Storage.PrivateCopies
import OSChallenges.Library.Interleaving
import OSChallenges.Storage.OwnPages
import OSChallenges.Storage.Interleaved
import OSChallenges.Storage.OpenCopies
import OSChallenges.Library.Records
import OSChallenges.FileSystem.Model
import OSChallenges.FileSystem.Bitmap
import OSChallenges.FileSystem.Lookup
import OSChallenges.FileSystem.Consistent
import OSChallenges.FileSystem.Calls
import OSChallenges.FileSystem.Disks
import OSChallenges.FileSystem.Sessions
import OSChallenges.FileSystem.Frames
import OSChallenges.FileSystem.Effects
import OSChallenges.FileSystem.Ownership
import OSChallenges.FileSystem.Names
import OSChallenges.FileSystem.Writes
import OSChallenges.FileSystem.Mounting
import OSChallenges.Threads.Resuming
import OSChallenges.Threads.Serial
import OSChallenges.Threads.Exits
import OSChallenges.Storage.ExactCounts
import OSChallenges.Storage.Failures
import OSChallenges.Storage.Seats
import OSChallenges.Shell.Drafts
import OSChallenges.Shell.Parsing
import OSChallenges.Shell.Commands
import OSChallenges.Shell.RoundTrip
import OSChallenges.Shell.Leftovers
import OSChallenges.Shell.Endings
import OSChallenges.Shell.Redirections
import OSChallenges.Threads.Tables
import OSChallenges.Storage.AllThreads
import OSChallenges.Storage.Ranges
import OSChallenges.FileSystem.ReadBack
import OSChallenges.FileSystem.Sizes
import OSChallenges.FileSystem.Offsets
import OSChallenges.FileSystem.IndexBlocks
import OSChallenges.FileSystem.Accounting
import OSChallenges.FileSystem.Leaks
import OSChallenges.FileSystem.Descriptors
import OSChallenges.FileSystem.Listing
import OSChallenges.FileSystem.Undoing
import OSChallenges.FileSystem.FreeBlocks
import OSChallenges.Storage.Rounding
import OSChallenges.Library.RoundRobin
import OSChallenges.Storage.FaultHandler
import OSChallenges.Threads.Turns
import OSChallenges.Storage.FlatMemory
import OSChallenges.Shell.Processes
import OSChallenges.Shell.EndOfFile
import OSChallenges.FileSystem.BitSet
import OSChallenges.Shell.Steps
import OSChallenges.Shell.ArgTable
import OSChallenges.Shell.Buffers
import OSChallenges.FileSystem.Refinement
import OSChallenges.Library.Refinement
import OSChallenges.FileSystem.Persistence
import OSChallenges.FileSystem.Crashes
import OSChallenges.Library.Potential
import OSChallenges.Threads.Fairness
import OSChallenges.Library.Descriptors
import OSChallenges.Shell.Freeing
import OSChallenges.Shell.MainLoop
import OSChallenges.Shell.Wiring
import OSChallenges.Shell.PlainPipelines
import OSChallenges.Shell.Typed
import OSChallenges.Storage.CopyStages
import OSChallenges.Storage.Callers
import OSChallenges.Storage.CopySteps
import OSChallenges.Storage.NewStorages
import OSChallenges.Storage.Isolation
import OSChallenges.Storage.Histories
