import Isomesh.Contour
import Isomesh.Decimal.Nearest
import Isomesh.Decimal.Positional
import Isomesh.Distance
import Isomesh.Proofs.BalancedSimplify
import Isomesh.Proofs.BallQueries
import Isomesh.Proofs.Binary64Order
import Isomesh.Proofs.BracketedContour
import Isomesh.Proofs.ClosedContour
import Isomesh.Proofs.CollapseTopology
import Isomesh.Proofs.ContourVolume
import Isomesh.Proofs.CoveredBox
import Isomesh.Proofs.CrossingVertices
import Isomesh.Proofs.ExactCrossings
import Isomesh.Proofs.FlatCollapse
import Isomesh.Proofs.GuidedRuns
import Isomesh.Proofs.ManifoldChecks
import Isomesh.Proofs.MeshHistory
import Isomesh.Proofs.MovedVertices
import Isomesh.Proofs.NearestOfTriangle
import Isomesh.Proofs.NearestSearch
import Isomesh.Proofs.NearestWithoutArea
import Isomesh.Proofs.ProbedDistance
import Isomesh.Proofs.RayQueries
import Isomesh.Proofs.SeamWelding
import Isomesh.Proofs.SimplifyFixpoint
import Isomesh.Proofs.SmoothedConnectivity
import Isomesh.Proofs.StockSolids
import Isomesh.Proofs.TetrahedronParity
import Isomesh.Proofs.TouchedShapes
import Isomesh.Proofs.UnfoldedCollapse
import Isomesh.Proofs.VertexMaps
import Isomesh.Proofs.WeldDistances
import Isomesh.Proofs.Welding
import Isomesh.Smooth
import Isomesh.Proofs.BalancedTree
import Isomesh.Proofs.MedianGrouping
import Isomesh.Proofs.VertexNormals
