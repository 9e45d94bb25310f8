import TourForest.Forest.Text
import TourForest.Main
import TourForest.Proofs.ByteStream
import TourForest.Proofs.Conservation
import TourForest.Proofs.Directions
import TourForest.Proofs.Forest.OneByOne
import TourForest.Proofs.Forest.Shortage
import TourForest.Proofs.Forest.Splice
import TourForest.Proofs.Forest.Survivors
import TourForest.Proofs.Forest.TourLaw
import TourForest.Proofs.Forest.Undo
import TourForest.Proofs.Forest.Unfailing
import TourForest.Proofs.Forest.WideEnds
import TourForest.Proofs.Hash
import TourForest.Proofs.Recycling
import TourForest.Proofs.SkipList.Partition
import TourForest.Proofs.SumList.Between
import TourForest.Proofs.SumList.Passes
import TourForest.Proofs.SumList.Rejoin
import TourForest.Proofs.Tombstones
import TourForest.SumList.Lemmas
import TourForest.Workspace
