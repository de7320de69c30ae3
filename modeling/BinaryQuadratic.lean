import BinaryQuadratic.Vartype
import BinaryQuadratic.Coefficient
import BinaryQuadratic.Label
import BinaryQuadratic.Json.Reader
import BinaryQuadratic.Json.Writer
import BinaryQuadratic.Params
import BinaryQuadratic.Size
import BinaryQuadratic.Model.Energy
import BinaryQuadratic.Model.Transform
import BinaryQuadratic.Model.Equality
import BinaryQuadratic.Model.Json
import BinaryQuadratic.SampleSet.Order
import BinaryQuadratic.SampleSet.Combine
import BinaryQuadratic.SampleSet.Table
import BinaryQuadratic.SampleSet.Checked
import BinaryQuadratic.SampleSet.Json
import BinaryQuadratic.Sampler.Exhaustive
import BinaryQuadratic.Sampler.SpinReversal
import BinaryQuadratic.Sampler.Truncate
import BinaryQuadratic.Proofs.Model.Bounds
import BinaryQuadratic.Proofs.SampleSet.Bounds
import BinaryQuadratic.Proofs.Sampler.Exhaustive
import BinaryQuadratic.Proofs.Sampler.Stack
import BinaryQuadratic.Proofs.Model.Contents
import BinaryQuadratic.Proofs.Model.Equality
import BinaryQuadratic.Proofs.Model.Construction
import BinaryQuadratic.Proofs.Sampler.Reproducible
import BinaryQuadratic.Proofs.Sampler.Warnings
import BinaryQuadratic.Proofs.SampleSet.Aggregate
import BinaryQuadratic.Proofs.SampleSet.Copies
import BinaryQuadratic.Proofs.Sampler.Coverage
import BinaryQuadratic.Proofs.Model.Additions
import BinaryQuadratic.Proofs.Sampler.Success
import BinaryQuadratic.Proofs.Sampler.Spectrum
import BinaryQuadratic.Proofs.Sampler.Domain
import BinaryQuadratic.Proofs.Json.Tokens
import BinaryQuadratic.Proofs.Json.RoundTrip
import BinaryQuadratic.Proofs.Model.Json
import BinaryQuadratic.Proofs.SampleSet.Leading
import BinaryQuadratic.Proofs.Sampler.Transforms
import BinaryQuadratic.Proofs.Json.Numbers
import BinaryQuadratic.Proofs.Value.Json
import BinaryQuadratic.Proofs.SampleSet.Json
import BinaryQuadratic.Proofs.Model.Identity
import BinaryQuadratic.Proofs.Model.Rewriting
import BinaryQuadratic.Proofs.Model.Flips
import BinaryQuadratic.Proofs.SampleSet.Rearranged
import BinaryQuadratic.Proofs.SampleSet.Checked
import BinaryQuadratic.Proofs.SampleSet.Lowest
import BinaryQuadratic.Proofs.SampleSet.Merged
import BinaryQuadratic.Proofs.SampleSet.Counts
import BinaryQuadratic.Proofs.SampleSet.Flips
import BinaryQuadratic.Proofs.SampleSet.Recoded
import BinaryQuadratic.Proofs.Sampler.Calls
import BinaryQuadratic.Proofs.SampleSet.Joined
import BinaryQuadratic.Proofs.Model.Rebuilt
import BinaryQuadratic.Proofs.Enumeration.Words
import BinaryQuadratic.Proofs.Params.Edits
import BinaryQuadratic.Proofs.Text.Numerals
import BinaryQuadratic.Proofs.Text.Lines
import BinaryQuadratic.Proofs.SampleSet.Table
import BinaryQuadratic.Proofs.Size
import BinaryQuadratic.Proofs.Text.Quoted
import BinaryQuadratic.Proofs.Value.Text
import BinaryQuadratic.Proofs.Text.Decimal
import BinaryQuadratic.Proofs.Text.Shortest
import BinaryQuadratic.Proofs.Text.Real
