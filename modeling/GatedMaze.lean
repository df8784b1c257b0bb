import GatedMaze.Main
import GatedMaze.Proofs.Distances
import GatedMaze.Proofs.History
import GatedMaze.Proofs.Layers
import GatedMaze.Proofs.LoopFree
import GatedMaze.Proofs.ManyAgents
import GatedMaze.Proofs.OneAgent
import GatedMaze.Proofs.OneStart
import GatedMaze.Proofs.OpenGates
import GatedMaze.Proofs.Recall
import GatedMaze.Proofs.Reports
import GatedMaze.Proofs.Tours
import GatedMaze.Proofs.Walled
import GatedMaze.Proofs.Writings
import GatedMaze.Proofs.Preferred
import GatedMaze.Proofs.FirstLegs
import GatedMaze.Proofs.Interleavings
import GatedMaze.Proofs.LevelCounts
import GatedMaze.Proofs.Greedy
import GatedMaze.Proofs.SolveNotes
import GatedMaze.Proofs.Offers
import GatedMaze.Proofs.Pairs
import GatedMaze.Proofs.Choices
import GatedMaze.Proofs.Surveys
import GatedMaze.Proofs.Members
import GatedMaze.Proofs.WrittenWalks
