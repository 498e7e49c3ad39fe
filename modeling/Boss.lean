import Boss.Census
import Boss.Runs
import Boss.LinkedChain
import Boss.ByteMemory
import Boss.WaitGraph
import Boss.MdbConstDef
import Boss.IndexRows
import Boss.IndexHash
import Boss.IndexHashRefine
import Boss.IndexHashRuns
import Boss.IndexHashScan
import Boss.MdbSessionScan
import Boss.LockManager
import Boss.LockManagerRuns
import Boss.LockManagerDeadLock
import Boss.LockManagerOrder
import Boss.LockRecord
import Boss.LockTable
import Boss.LockTableRuns
import Boss.TableLock
import Boss.MutexDoubleLock
import Boss.MutexDoubleLockRuns
import Boss.MutexRollback
import Boss.MutexRegistry
import Boss.IpcDoubleLock
import Boss.PageInfo
import Boss.PageSlots
import Boss.MemManager
import Boss.MemManagerLayout
import Boss.MemManagerSteps
import Boss.MemManagerAlloc
import Boss.MemManagerBatch
import Boss.MemManagerRuns
import Boss.MemManagerTruncate
import Boss.MemManagerExhausted
import Boss.BaseTableInsert
import Boss.IndexRowsChange
import Boss.IndexRowsUndo
import Boss.BaseTableUpdate
import Boss.BaseTableUndo
import Boss.TransDataMgrReads
import Boss.ListManagerDistinct
import Boss.IndexMemMgrRelease
import Boss.TableDescript
import Boss.TableDescriptDrop
import Boss.BaseTableDrop
import Boss.BaseTable
import Boss.TableCommit
import Boss.DoublyLinked
import Boss.Tiling
import Boss.IndexMemMgr
import Boss.IndexMemMgrLayout
import Boss.IndexMemMgrCreate
import Boss.IndexMemMgrDrop
import Boss.IndexMemMgrRuns
import Boss.SortedSlice
import Boss.ListManager
import Boss.ListManagerRuns
import Boss.ControlMemMgr
import Boss.Decimal
import Boss.ExcuteCmd
import Boss.LengthPrefix
import Boss.PublicFunc
import Boss.RemoteMdbSession
import Boss.DealRequest
import Boss.SocketSession
import Boss.Expression
import Boss.ExpressionParse
import Boss.ExpressionMeaning
import Boss.TransDataMgr
import Boss.TransDataMgrRuns
import Boss.TransDataMgrCommit
import Boss.SortedMap
import Boss.MdbAddress
import Boss.BillStruct
import Boss.RateGlobalInfo
import Boss.TpRealRentMgr
import Boss.SetDetailBill
import Boss.AdjustBeforeCalc
import Boss.Calendar
import Boss.AddupCycleRule
import Boss.ParameterInterface
import Boss.PayRelationSolution
import Boss.PayRelationLimit
import Boss.CSLEngineExecute
import Boss.CSLEngineSigned
import Boss.LinkedRing
import Boss.DtaQueue
import Boss.DtaQueueConsistent
import Boss.DtaQueueRuns
import Boss.DtaQueueNumbered
import Boss.DtaQueueConsumers
import Boss.DtaQueueCleaning
import Boss.DtaSendMsg
import Boss.DtaSendQueue
import Boss.Grid
import Boss.LocalTime
import Boss.Cycle
import Boss.CyclePartition
import Boss.DtaFileTransfer
import Boss.FixedRows
import Boss.DataSet
import Boss.DataSetIndex
import Boss.DataSetLocate
import Boss.ParameterRefresh
import Boss.ParameterService
import Boss.BTreeNode
import Boss.BTreeLevels
import Boss.BTreeStore
import Boss.BTreeInsert
import Boss.BTreeSearch
import Boss.BTreeShape
import Boss.BTreeTruncate
import Boss.RecordConvert
import Boss.ColumnOrder
import Boss.IndexKey
import Boss.IndexBTreeKey
import Boss.InputParams
import Boss.SearchKey
import Boss.Histogram
import Boss.IndexHashPercent
import Boss.IndexHashReIndex
import Boss.ExpressionChain
import Boss.MachineInt
import Boss.Spans
import Boss.DateTime
import Boss.CdrSeg
import Boss.GetCdrSegments
import Boss.CondRule
import Boss.PriceComp
import Boss.Price
import Boss.AddupCycleBefore
import Boss.SegFeeInfo
import Boss.UpdateSegFeeInfo
import Boss.SumBillMgr
import Boss.Rounding
import Boss.DetailBillMgr
import Boss.AcctBillMgr
import Boss.EffectDiscnt
import Boss.PayRelationExact
import Boss.TpInfo
import Boss.SegFreeValue
import Boss.CheaperSeg
import Boss.SendMinList
import Boss.EffectAddup
import Boss.DtaQueueOrder
import Boss.DtaQueueHistory
import Boss.DtaQueueFailure
import Boss.Chunks
import Boss.ParameterBuffer
import Boss.ParameterExp
import Boss.ParameterExpText
import Boss.RunSearch
import Boss.ParameterSearch
import Boss.ParameterAnswer
import Boss.BCDUtil
import Boss.CryptUtil
import Boss.PageSlotList
import Boss.SymbolScan
