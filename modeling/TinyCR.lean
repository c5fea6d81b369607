import TinyCR.BitWords
import TinyCR.EdgeForest
import TinyCR.EdgeLabels
import TinyCR.IntrusiveLists
import TinyCR.ParentPointers
import TinyCR.DisjointSet
import TinyCR.BucketCodec
import TinyCR.AlternatePosition
import TinyCR.VacuumFilter
import TinyCR.FilterLayout
import TinyCR.FilterRun
import TinyCR.LargeFilter
import TinyCR.BijectiveMixing
import TinyCR.MurmurHash
import TinyCR.PackedCells
import TinyCR.BloomFilter
import TinyCR.BloomMirror
import TinyCR.ControlPlaneOthello
import TinyCR.OthelloCopies
import TinyCR.DataPlaneOthello
import TinyCR.MemoryDiff
import TinyCR.NodeLists
import TinyCR.ComponentSets
import TinyCR.OthelloInvariant
import TinyCR.OthelloIndex
import TinyCR.OthelloCells
import TinyCR.OthelloSteps
import TinyCR.OthelloBuild
import TinyCR.OthelloInsert
import TinyCR.OthelloRun
import TinyCR.OthelloForests
import TinyCR.OthelloRoom
import TinyCR.OthelloLoops
import TinyCR.OthelloOnDemand
import TinyCR.OthelloDigests
import TinyCR.OthelloFailures
import TinyCR.OthelloRefill
import TinyCR.OthelloMigration
import TinyCR.OthelloPatches
import TinyCR.OthelloCapacity
import TinyCR.OthelloReads
import TinyCR.DASSTracker
import TinyCR.TrackerInvariant
import TinyCR.TrackerSteps
import TinyCR.TrackerRun
import TinyCR.TrackerCounts
import TinyCR.TrackerSizing
import TinyCR.TrackerErase
import TinyCR.TrackerFrame
import TinyCR.DASSVerifier
import TinyCR.TrackerOnward
import TinyCR.TrackerReinsert
import TinyCR.CRIoTControl
import TinyCR.ByteReader
import TinyCR.SummaryWire
import TinyCR.MessageFraming
import TinyCR.FilterCopy
import TinyCR.FullWire
import TinyCR.FullUpdates
import TinyCR.TinyCRServer
import TinyCR.CommandListener
import TinyCR.CertificateKeys
import TinyCR.DeviceAgreement
import TinyCR.ConnectedDevices
import TinyCR.CertificateRemoval
import TinyCR.LabelledRuns
import TinyCR.UpdateMessages
import TinyCR.FleetMessages
import TinyCR.FleetAgreement
import TinyCR.FleetRejoin
import TinyCR.FleetFailures
import TinyCR.CriticalSections
import TinyCR.ServerThreads
import TinyCR.ClientThreads
import TinyCR.CommandTexts
