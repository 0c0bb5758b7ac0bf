import MapInference.Main
import MapInference.Proofs.Graph.Bounds
import MapInference.Proofs.Graph.Status
import MapInference.Proofs.ActiveSet.Matrix
import MapInference.Proofs.ActiveSet.Elimination
import MapInference.Proofs.Oracle.Vertices
import MapInference.Proofs.Oracle.JointStates
import MapInference.Proofs.Oracle.BestMatching
import MapInference.Proofs.Oracle.BestSegmentation
import MapInference.Proofs.Logic.Operators
import MapInference.Proofs.ActiveSet.Inverse
import MapInference.Proofs.ActiveSet.Insertion
import MapInference.Proofs.ActiveSet.Exchange
import MapInference.Proofs.ActiveSet.Steps
import MapInference.Proofs.ActiveSet.Calls
import MapInference.Proofs.ActiveSet.Optimality
import MapInference.Proofs.Projection.Closest
import MapInference.Proofs.ActiveSet.WarmStart
import MapInference.Proofs.ActiveSet.ClosedForms
import MapInference.Proofs.Factor.Additionals
import MapInference.Proofs.Factor.Projection
import MapInference.Proofs.Graph.Groups
import MapInference.Proofs.Graph.Objective
import MapInference.Proofs.Graph.History
import MapInference.Proofs.Relaxation.Polytope
import MapInference.Proofs.Relaxation.Conservation
import MapInference.Proofs.Relaxation.FixedPoints
import MapInference.Proofs.GraphFile.RoundTrip
import MapInference.Proofs.ActiveSet.Lookups
import MapInference.Proofs.ActiveSet.Inversion
import MapInference.Proofs.ActiveSet.Replacement
import MapInference.Proofs.ActiveSet.Progress
import MapInference.Proofs.Relaxation.Ranges
import MapInference.Proofs.Graph.StateSums
import MapInference.Proofs.Graph.InPlace
import MapInference.Proofs.Graph.Knapsacks
import MapInference.Proofs.Search.Counters
import MapInference.Proofs.Graph.Shapes
import MapInference.Proofs.GraphFile.References
