import ProviaVM.Instruction.DivisionChecks
import ProviaVM.ReadRaf.WordSuffixes
import ProviaVM.Poly.MlesProduct
import ProviaVM.Poly.OneHotOpening
import ProviaVM.Poly.OneHotLeakage
import ProviaVM.Preprocessing.CrashConsistency
import ProviaVM.Preprocessing.DaBitCorrelation
import ProviaVM.Preprocessing.PrecacheFailures
import ProviaVM.ReadRaf.Budget
import ProviaVM.ReadRaf.MaskTensor
import ProviaVM.ReadRaf.XorRotSuffixes
import ProviaVM.Rep3.ConversionPrivacy
import ProviaVM.Rep3.Conversions
import ProviaVM.Rsa.PublicKey
import ProviaVM.Sumcheck.BatchedCorrectness
import ProviaVM.Sumcheck.MixedValue
import ProviaVM.Rep3.CorrelatedRng
import ProviaVM.Sumcheck.RoundCompression
import ProviaVM.Blindfold.Satisfiability
import ProviaVM.Verifier.HiddenRuns
import ProviaVM.Verifier.InitialMemory
