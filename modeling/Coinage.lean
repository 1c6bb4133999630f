import Coinage.Session
import Coinage.Proofs.CoinExact
import Coinage.Proofs.EntryRange
import Coinage.Proofs.ExactFormat
import Coinage.Proofs.LabelRoundTrip
import Coinage.Proofs.SessionArithmetic
import Coinage.Proofs.SessionFrames
import Coinage.Proofs.ShortestFormat
import Coinage.Proofs.Signs
import Coinage.Proofs.UnitGrammar
import Coinage.Proofs.FormatShape
import Coinage.Proofs.HalfAway
import Coinage.Proofs.Negation
import Coinage.Proofs.NearestEven
import Coinage.Proofs.NumberOrder
import Coinage.Proofs.PowerRange
import Coinage.Proofs.ProductError
import Coinage.Proofs.Proportions
import Coinage.Proofs.Reciprocals
import Coinage.Proofs.SmallUnits
import Coinage.Proofs.UnitAccuracy
import Coinage.Proofs.UnitRange
import Coinage.Proofs.FixedPlaces
import Coinage.Proofs.Sums
import Coinage.Proofs.HaoTexts
import Coinage.Proofs.NumeralFaults
import Coinage.Proofs.NumbersInFaults
import Coinage.Proofs.Rankings
import Coinage.Proofs.Reentry
import Coinage.Proofs.TextsInFaults
import Coinage.Proofs.UncappedPlaces
