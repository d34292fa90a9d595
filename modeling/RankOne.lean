import RankOne.CommandLine
import RankOne.Main
import RankOne.Proofs.Benchmark.Pipeline
import RankOne.Proofs.Comparators
import RankOne.Proofs.Computation
import RankOne.Proofs.Expansion
import RankOne.Proofs.Quotients
import RankOne.Proofs.Recomposition
import RankOne.Proofs.Sha256.Calls
import RankOne.Proofs.Sha256.IgnoredLength
import RankOne.Proofs.Script.Simulation
import RankOne.Proofs.Renaming
import RankOne.Proofs.Sha256.Displacement
import RankOne.Proofs.Sha256.Concatenation
import RankOne.Proofs.Paths
import RankOne.Proofs.Sha256.Restart
import RankOne.Proofs.Attempts
import RankOne.Proofs.Sha256.Paths
import RankOne.Proofs.Caches
import RankOne.Proofs.Sha256.Caches
import RankOne.Proofs.Script.Caches
import RankOne.Proofs.Requests
import RankOne.Proofs.NamingFaults
import RankOne.Proofs.Registry
import RankOne.Proofs.Checking
import RankOne.Proofs.Hints
import RankOne.Proofs.Sizes
import RankOne.Proofs.Abreast
import RankOne.Proofs.Sha256.Sizes
import RankOne.Proofs.Benchmark.Sizes
