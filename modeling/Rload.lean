import Rload.UriTopBounds
import Rload.ResponseFraming
import Rload.RequestAccounting
import Rload.EarlyResponses
import Rload.WrittenBytes
import Rload.FailureIsolation
import Rload.Deadlines
import Rload.EstablishedConnections
import Rload.ReplacedTransports
import Rload.FailureCategories
import Rload.ControlLimits
import Rload.ResponseEnds
import Rload.RequestRoundTrip
import Rload.SingleRequests
import Rload.RecordDecoding
import Rload.SkippedRecords
import Rload.StatusBreakdown
import Rload.FilteredReplays
import Rload.PacedRequests
import Rload.AnsweredRequests
import Rload.ScheduledLatencies
import Rload.DecodedBytes
import Rload.ReceivedBytes
import Rload.WorkerTasks
import Rload.LateRequests
import Rload.RegistryCalls
import Rload.RegisteredTransports
import Rload.AppendedQueries
import Rload.RatePacing
import Rload.StagePacing
import Rload.TimestampPacing
import Rload.TimeLocal
import Rload.Report
import Rload.SettingPrecedence
import Rload.CompletedRounds
import Rload.InPlaceCorrection
import Rload.InstantArithmetic
import Rload.ComposedUrls
import Rload.RecordLines
import Rload.ChunkedGrammar
import Rload.PanickingLines
import Rload.ReportData
import Rload.UnbiasedDraws
import Rload.ActiveConnections
import Rload.PanicFreeRuns
import Rload.FinishedRuns
import Rload.ReproducibleDraws
import Rload.IdlePolls
import Rload.LaunchedRuns
import Rload.RenderedOptions
import Rload.Assertions
