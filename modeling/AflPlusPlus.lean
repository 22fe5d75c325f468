import AflPlusPlus.QueueFavored
import AflPlusPlus.QueueRebuild
import AflPlusPlus.QueueCalibrated
import AflPlusPlus.QueueCounters
import AflPlusPlus.ScoreDivisions
import AflPlusPlus.CustomTrim
import AflPlusPlus.CacheBuffers
import AflPlusPlus.DryRunDuplicates
import AflPlusPlus.QueuePopulation
import AflPlusPlus.FastResume
import AflPlusPlus.SyncRace
import AflPlusPlus.ExploredCoverage
import AflPlusPlus.DetDuplicates
import AflPlusPlus.DictionaryStages
import AflPlusPlus.FrameShiftProbe
import AflPlusPlus.LibraryWords
import AflPlusPlus.HavocTracking
import AflPlusPlus.FrameShiftDet
import AflPlusPlus.AutoDictionary
import AflPlusPlus.SplicePartner
import AflPlusPlus.CminProtocol
import AflPlusPlus.CminScan
import AflPlusPlus.CminCoverage
import AflPlusPlus.TminMinimal
import AflPlusPlus.TminJudgement
import AflPlusPlus.FridaExcluded
import AflPlusPlus.PersistentTimeouts
import AflPlusPlus.PersistentRecord
import AflPlusPlus.PathCounts
import AflPlusPlus.MapRegions
import AflPlusPlus.Handshake
import AflPlusPlus.AllocComplete
import AflPlusPlus.CmpLogFaithful
import AflPlusPlus.TestcaseDelivery
import AflPlusPlus.WriteBudget
import AflPlusPlus.Base64
import AflPlusPlus.WordMixing
import AflPlusPlus.PcFilter
import AflPlusPlus.NearbyBytes
