import VectorDistance.ArcCosine
import VectorDistance.BitVector
import VectorDistance.HalfText
import VectorDistance.HalfVector
import VectorDistance.HalfVectorRun
import VectorDistance.Main
import VectorDistance.RegistryCall
import VectorDistance.Proofs.ExactValue
import VectorDistance.Proofs.RoundingLaws
import VectorDistance.Proofs.HalfRounding
import VectorDistance.Proofs.EncodingFields
import VectorDistance.Proofs.BitAccumulation
import VectorDistance.Proofs.CosineBound
import VectorDistance.Proofs.CosineRange
import VectorDistance.Proofs.RegularVectors
import VectorDistance.Proofs.RegistryRuns
import VectorDistance.Proofs.DoubleRounding
import VectorDistance.Proofs.SpecialValues
import VectorDistance.Proofs.CallOutcomes
import VectorDistance.Proofs.ExactSums
import VectorDistance.Proofs.HammingMetric
import VectorDistance.Proofs.JaccardRange
import VectorDistance.Proofs.PackedBits
import VectorDistance.Proofs.QuantizedVectors
import VectorDistance.Proofs.BlockCounts
import VectorDistance.Proofs.CosineOutcome
import VectorDistance.Proofs.NormAgreement
import VectorDistance.Proofs.ExactKernels
import VectorDistance.Proofs.SelfCheckOutcome
import VectorDistance.Proofs.FlagDistances
import VectorDistance.Proofs.UnitLength
import VectorDistance.Proofs.InclusionExclusion
import VectorDistance.Proofs.GrowingSums
import VectorDistance.Proofs.CodecOrder
import VectorDistance.Proofs.KeyOrder
import VectorDistance.Proofs.OperandSymmetry
import VectorDistance.Proofs.VectorReencoding
import VectorDistance.Proofs.CheckedArithmetic
import VectorDistance.Proofs.ScaledRounding
import VectorDistance.Proofs.ScaledVectors
import VectorDistance.Proofs.VectorParts
import VectorDistance.Proofs.ReferenceLaws
import VectorDistance.Proofs.SettingsPrecedence
