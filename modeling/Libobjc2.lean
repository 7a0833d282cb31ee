import Libobjc2.Common.Run
import Libobjc2.Memory.AutoreleasePool
import Libobjc2.Memory.RefCount
import Libobjc2.Memory.RefCountThreads
import Libobjc2.Common.Holders
import Libobjc2.Dispatch.SparseArray
import Libobjc2.Dispatch.SparseArrayHeap
import Libobjc2.Dispatch.SparseArrayInsert
import Libobjc2.Dispatch.SparseArrayRuns
import Libobjc2.Common.Forest
import Libobjc2.Common.Inheritance
import Libobjc2.Dispatch.Classes
import Libobjc2.Dispatch.Dtable
import Libobjc2.Dispatch.Mutation
import Libobjc2.Dispatch.Install
import Libobjc2.Dispatch.Hierarchy
import Libobjc2.Dispatch.Steps
import Libobjc2.Dispatch.Rebase
import Libobjc2.Dispatch.Resolution
import Libobjc2.Common.LinkedList
import Libobjc2.Dispatch.Initialize
import Libobjc2.Dispatch.InitializeRuns
import Libobjc2.Dispatch.SafeReload
import Libobjc2.Dispatch.AllOrNothing
import Libobjc2.Classes.ClassLinks
import Libobjc2.Classes.UnresolvedList
import Libobjc2.Classes.SubclassLists
import Libobjc2.Classes.LoadMessages
import Libobjc2.Classes.ClassNames
import Libobjc2.Blocks.Trampolines
import Libobjc2.Common.Tally
import Libobjc2.Blocks.ByrefPromotion
import Libobjc2.Classes.ObjectBuffer
import Libobjc2.Classes.Categories
import Libobjc2.Common.FirstWins
import Libobjc2.Protocols.Merge
import Libobjc2.Protocols.Canonical
import Libobjc2.Common.Alignment
import Libobjc2.Encoding.TypeSize
import Libobjc2.Encoding.TypeTree
import Libobjc2.Encoding.TypeParser
import Libobjc2.Encoding.Layout
import Libobjc2.Common.Fields
import Libobjc2.Properties.Attributes
import Libobjc2.Properties.RoundTrip
import Libobjc2.Classes.LookupCache
import Libobjc2.Memory.RefCountWord
import Libobjc2.Dispatch.SelectorTypes
import Libobjc2.Classes.IvarLayout
import Libobjc2.Common.Stacked
import Libobjc2.Classes.IvarAddition
import Libobjc2.Exceptions.CaughtStack
import Libobjc2.Images.Records
import Libobjc2.Images.Retirement
import Libobjc2.Dispatch.CxxCaches
import Libobjc2.Dispatch.TableGrowth
import Libobjc2.Dispatch.TableEntries
import Libobjc2.Images.UnloadReports
import Libobjc2.Tables.HashTable
import Libobjc2.Tables.Removal
import Libobjc2.Tables.Enumeration
import Libobjc2.Memory.AssociationSlot
import Libobjc2.Memory.ReferenceList
import Libobjc2.Memory.Associations
import Libobjc2.Memory.HiddenClasses
import Libobjc2.Memory.DestructorWalks
import Libobjc2.Common.LockOrder
import Libobjc2.Memory.WeakTable
import Libobjc2.Memory.WeakReferences
import Libobjc2.Memory.WeakSteps
import Libobjc2.Memory.WeakThreads
import Libobjc2.Common.FirstIn
import Libobjc2.Dispatch.SparseArrayNext
import Libobjc2.Memory.ReturnedObject
import Libobjc2.Memory.PoolDraining
import Libobjc2.Memory.PoolReentrancy
import Libobjc2.Memory.ThreadCleanup
import Libobjc2.Dispatch.SparseArrayFailures
import Libobjc2.Dispatch.ARCAccessors
import Libobjc2.Classes.LinkResolution
import Libobjc2.Dispatch.SafeCaching
import Libobjc2.Common.Allocations
import Libobjc2.Common.Buffer
import Libobjc2.Classes.LegacyIvars
import Libobjc2.Classes.Duplication
import Libobjc2.Properties.LegacyProperties
import Libobjc2.Properties.AttributeBuffers
import Libobjc2.Properties.Setters
import Libobjc2.Common.Search
import Libobjc2.Protocols.Conformance
import Libobjc2.Encoding.ExtendedTypes
import Libobjc2.Encoding.ExtendedParser
import Libobjc2.Encoding.ParserPositions
import Libobjc2.Encoding.ParserBounds
import Libobjc2.Encoding.MethodSignatures
import Libobjc2.Blocks.MethodEncodings
import Libobjc2.Encoding.StructureMembers
import Libobjc2.Dispatch.SuperclassTables
import Libobjc2.Dispatch.UntypedResolution
import Libobjc2.Dispatch.FastPathFlags
import Libobjc2.Concurrency.MutationEpoch
import Libobjc2.Concurrency.ThinLock
import Libobjc2.Exceptions.Leb128
import Libobjc2.Exceptions.CallSites
import Libobjc2.Encoding.SameText
import Libobjc2.Dispatch.TracingHooks
