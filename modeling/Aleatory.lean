import Aleatory.Equivalence.Oracle
import Aleatory.Experiment.Describe
import Aleatory.Experiment.Meaning
import Aleatory.Generator.SplitMix
import Aleatory.Sampler.Direct
import Aleatory.Store
import Aleatory.Proofs.Generator.Orbit
import Aleatory.Proofs.Generator.Period
import Aleatory.Proofs.Generator.Branches
import Aleatory.Proofs.Numeric.Double
import Aleatory.Proofs.Numeric.Nearest
import Aleatory.Proofs.Numeric.Rounding
import Aleatory.Proofs.Numeric.Operations
import Aleatory.Proofs.Numeric.Magnitude
import Aleatory.Proofs.Numeric.Monotone
import Aleatory.Proofs.Numeric.LogSumExp
import Aleatory.Proofs.Numeric.LogGamma
import Aleatory.Proofs.Mode.Unrolling
import Aleatory.Proofs.Mode.Passes
import Aleatory.Proofs.Experiment.Course
import Aleatory.Proofs.Experiment.Interpretation
import Aleatory.Proofs.Experiment.Turn
import Aleatory.Proofs.Experiment.Journey
import Aleatory.Proofs.Experiment.Reckoning
import Aleatory.Proofs.Experiment.Adequacy
import Aleatory.Proofs.Experiment.Laws
import Aleatory.Proofs.Recipe.Reading
import Aleatory.Proofs.Recipe.Words
import Aleatory.Proofs.Generator.Cursor
import Aleatory.Proofs.Sampler.Construction
import Aleatory.Proofs.Equivalence.Frequency
import Aleatory.Proofs.Equivalence.Trials
import Aleatory.Proofs.Equivalence.Sampling
import Aleatory.Proofs.Equivalence.Survey
import Aleatory.Proofs.Equivalence.Decision
import Aleatory.Proofs.Equivalence.Journal
import Aleatory.Proofs.Equivalence.Symmetry
import Aleatory.Proofs.Equivalence.Reflexivity
import Aleatory.Proofs.Design.Charges
import Aleatory.Proofs.Likelihood.Consistency
import Aleatory.Proofs.Likelihood.Evidence
import Aleatory.Proofs.Likelihood.Exchange
import Aleatory.Proofs.Likelihood.Posterior
import Aleatory.Proofs.Likelihood.Bounds
import Aleatory.Proofs.Likelihood.Probability
import Aleatory.Proofs.Equivalence.Threshold
import Aleatory.Proofs.Equivalence.Bookkeeping
import Aleatory.Proofs.Equivalence.Validation
import Aleatory.Proofs.Equivalence.Serialisation
import Aleatory.Proofs.Numeric.Truncation
import Aleatory.Proofs.Numeric.UnitInterval
import Aleatory.Proofs.Numeric.Bits
import Aleatory.Proofs.Numeric.Neighbourhood
import Aleatory.Proofs.Numeric.Scaling
import Aleatory.Proofs.Numeric.Fraction
import Aleatory.Proofs.Decimal.Shortest
import Aleatory.Proofs.Json.Numeral
import Aleatory.Proofs.Json.Grammar
import Aleatory.Proofs.Json.Tokens
import Aleatory.Proofs.Json.Reading
import Aleatory.Proofs.Json.Rendering
import Aleatory.Proofs.Json.Skipping
import Aleatory.Proofs.Json.Reread
import Aleatory.Proofs.Store.History
import Aleatory.Proofs.Sampler.Categorical
import Aleatory.Proofs.Sampler.Bernoulli
import Aleatory.Proofs.Sampler.Uniform
import Aleatory.Proofs.Sampler.Grid
