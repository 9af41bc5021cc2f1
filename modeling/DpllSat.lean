import DpllSat.Main
import DpllSat.Proofs.Benchmark.Exactness
import DpllSat.Proofs.Branching.FirstBest
import DpllSat.Proofs.Confluence
import DpllSat.Proofs.Deadline
import DpllSat.Proofs.Instance.Planted
import DpllSat.Proofs.Model
import DpllSat.Proofs.Refinement
import DpllSat.Proofs.SearchBound
import DpllSat.Proofs.StackDepth
import DpllSat.Proofs.SearchTree
import DpllSat.Proofs.Fixpoint
import DpllSat.Proofs.Dimacs.Faults
import DpllSat.Proofs.Dimacs.Errors
import DpllSat.Proofs.Instance.Shape
import DpllSat.Proofs.Branching.Sums
import DpllSat.Proofs.SolutionText
import DpllSat.Proofs.Benchmark.LogReading
import DpllSat.Proofs.PropagationCount
import DpllSat.Proofs.Benchmark.LogAmongInputs
