import Nachos.Executions
import Nachos.SlotTables
import Nachos.FifoMutex
import Nachos.BitMaps
import Nachos.ServerSynch
import Nachos.ServerMessages
import Nachos.ServerObjects
import Nachos.ServerBoxZero
import Nachos.ServerBoxOne
import Nachos.ServerLockService
import Nachos.ServerLockHistory
import Nachos.ServerLockRuns
import Nachos.ServerLockDeletion
import Nachos.ServerLockCount
import Nachos.ServerReplies
import Nachos.ServerReplyContract
import Nachos.ServerConditionEffects
import Nachos.ServerLockIdentity
import Nachos.ServerNetwork
import Nachos.TieBreak
import Nachos.TieBreakSafety
import Nachos.TieBreakProgress
import Nachos.ServerCreates
import Nachos.ServerCreateMoves
import Nachos.ServerCreateRefinement
import Nachos.ServerCreateAgreement
import Nachos.ServerCreateProgress
import Nachos.ServerUpdates
import Nachos.ServerRouting
import Nachos.ServerQueries
import Nachos.ServerCreateNumbers
import Nachos.KernelSynch
import Nachos.KernelThreads
import Nachos.KernelLockRuns
import Nachos.KernelConditions
import Nachos.KernelMesa
import Nachos.ByteBuffers
import Nachos.ServerWire
import Nachos.ServerQueryFormat
import Nachos.KernelLockTable
import Nachos.KernelLockDeletion
import Nachos.NamedArrays
import Nachos.ServerMonitorStore
import Nachos.WriteBackCaches
import Nachos.KernelPaging
import Nachos.KernelPagingFrames
import Nachos.KernelPagingInvariant
import Nachos.KernelPagingPages
import Nachos.KernelPagingLoads
import Nachos.KernelPagingAccess
import Nachos.KernelPagingCoherence
import Nachos.KernelPageFaults
import Nachos.KernelMemoryCoherence
import Nachos.KernelProcesses
import Nachos.KernelProcessAccounting
import Nachos.KernelThreadStacks
import Nachos.KernelUserCopy
import Nachos.KernelFaultAddresses
import Nachos.KernelMultiprogramming
import Nachos.KernelSwapSlots
import Nachos.KernelEvictionList
import Nachos.KernelExitFrames
import Nachos.KernelExitInvariant
import Nachos.KernelFreshMemory
import Nachos.KernelObjectTables
import Nachos.KernelConditionTable
import Nachos.KernelConditionDeletion
import Nachos.KernelObjectStores
import Nachos.KernelUserObjects
import Nachos.KernelIsolation
import Nachos.KernelExitObjects
import Nachos.FifoQueues
import Nachos.ServerConditionRuns
import Nachos.ServerTables
import Nachos.ServerNameTables
import Nachos.ServerDestroys
import Nachos.ServerConditionDeferral
import Nachos.ServerTableBounds
import Nachos.ServerNegativeReplies
import Nachos.ServerLateReplies
import Nachos.ServerLockTracking
import Nachos.ServerOwnership
import Nachos.KernelQueues
import Nachos.MesaThreads
import Nachos.SupermarketThreads
import Nachos.SupermarketShelves
import Nachos.SupermarketHandOff
import Nachos.SupermarketStockRoom
import Nachos.SupermarketNegotiation
import Nachos.SupermarketSettlement
import Nachos.NetworkedVariables
import Nachos.NetworkedCharges
import Nachos.NetworkedClosing
import Nachos.LostUpdates
import Nachos.NetworkedDeparture
import Nachos.NetworkedTrollies
import Nachos.SupermarketBreaks
import Nachos.ByteImages
import Nachos.FileSectors
import Nachos.FileAllocation
import Nachos.FileDirectory
import Nachos.FileSystems
import Nachos.FileInvariant
import Nachos.Simulations
import Nachos.FileStore
import Nachos.FileTransfers
import Nachos.MipsInstructions
import Nachos.MipsMultiplication
import Nachos.MipsMachine
import Nachos.MipsArchitecture
import Nachos.MipsRefinement
import Nachos.MipsRestarts
import Nachos.KernelUserPrograms
import Nachos.InterruptTimes
import Nachos.KernelSemaphores
import Nachos.LinkedChains
import Nachos.ThreadLists
import Nachos.ListSequences
import Nachos.MachineInterrupts
import Nachos.KernelSynchDisk
