import CmaesSolenoid.InputLoop
import CmaesSolenoid.GappedInput
import CmaesSolenoid.PartialState
import CmaesSolenoid.Interleaving
import CmaesSolenoid.RpiUart
import CmaesSolenoid.ReplyParser
import CmaesSolenoid.ReceiveBuf
import CmaesSolenoid.Bno055Uart
import CmaesSolenoid.LinearAcceleration
import CmaesSolenoid.Waiting
import CmaesSolenoid.BringUp
import CmaesSolenoid.BnoThread
import CmaesSolenoid.Shutdown
import CmaesSolenoid.MotorExit
import CmaesSolenoid.Best
import CmaesSolenoid.CmaSolutions
import CmaesSolenoid.Optimiser
import CmaesSolenoid.LineBuffer
import CmaesSolenoid.CsvReader
import CmaesSolenoid.CsvLoading
import CmaesSolenoid.CsvRoundTrip
import CmaesSolenoid.CsvUpdates
import CmaesSolenoid.CsvKeptLines
import CmaesSolenoid.ConfigStore
import CmaesSolenoid.CsvSaving
import CmaesSolenoid.StoreQueries
import CmaesSolenoid.Mean
import CmaesSolenoid.Measurement
import CmaesSolenoid.RegisterReads
import CmaesSolenoid.PolledQueue
import CmaesSolenoid.PythonBridge
import CmaesSolenoid.ReceiveBounds
import CmaesSolenoid.FileHelper
import CmaesSolenoid.SamplingRate
import CmaesSolenoid.UartDescriptor
import CmaesSolenoid.PopenCmd
import CmaesSolenoid.BoardId
import CmaesSolenoid.RecentHistory
import CmaesSolenoid.StopCriteria
import CmaesSolenoid.WhileLoop
import CmaesSolenoid.CmaStrategy
import CmaesSolenoid.SearchRecords
import CmaesSolenoid.HistoryCriteria
import CmaesSolenoid.SearchRuns
import CmaesSolenoid.Elitism
import CmaesSolenoid.MainSearch
import CmaesSolenoid.Restarts
import CmaesSolenoid.Bipop
import CmaesSolenoid.Folding
import CmaesSolenoid.GenoPheno
import CmaesSolenoid.CovarianceUpdate
import CmaesSolenoid.FixedParameters
import CmaesSolenoid.Adaptation
import CmaesSolenoid.ConfigValues
import CmaesSolenoid.MotorSettings
