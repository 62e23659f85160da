import MixedNumbers.Accumulator
import MixedNumbers.Binary64.Encoding
import MixedNumbers.Main
import MixedNumbers.Proofs.Accumulator
import MixedNumbers.Proofs.Arguments
import MixedNumbers.Proofs.EqualOperands
import MixedNumbers.Proofs.Options
import MixedNumbers.Proofs.Records
import MixedNumbers.Proofs.Recovery
import MixedNumbers.Proofs.Spacing
import MixedNumbers.Proofs.Spelling
import MixedNumbers.Proofs.Swapping
import MixedNumbers.Proofs.Transcript
import MixedNumbers.Proofs.WholeResults
import MixedNumbers.Proofs.Growth
import MixedNumbers.Proofs.Accuracy
import MixedNumbers.Proofs.NearZero
import MixedNumbers.Proofs.ContinuedFraction
import MixedNumbers.Proofs.SmallFractions
