import GnuRQi.Proof.Real
import GnuRQi.Proof.RealBook
import GnuRQi.Proof.RealCalls
import GnuRQi.R.Numeric
import GnuRQi.R.Vector
import GnuRQi.R.Statistics
import GnuRQi.Burnout.Chill
import GnuRQi.Burnout.Matrix
import GnuRQi.Proof.HmcatPooled
import GnuRQi.Coldcall.Args
import GnuRQi.Statistics.Binomial
import GnuRQi.Statistics.Logistic
import GnuRQi.Coldcall.Temp
import GnuRQi.Proof.HmcatQuadrature
import GnuRQi.R.Order
import GnuRQi.Burnout.CallSpread
import GnuRQi.R.Factor
import GnuRQi.Proof.Classes
import GnuRQi.Statistics.Standard
import GnuRQi.R.Random
import GnuRQi.Statistics.BinomialLaw
import GnuRQi.Burnout.CallStandard
import GnuRQi.Burnout.Restores
import GnuRQi.Statistics.Normal
import GnuRQi.Burnout.MatrixInterval
import GnuRQi.Text.Literals
import GnuRQi.Text.Placeholders
import GnuRQi.R.Text
import GnuRQi.R.Language
import GnuRQi.R.Parsing
import GnuRQi.Renv.Json
import GnuRQi.Renv.JsonNames
import GnuRQi.Renv.JsonText
import GnuRQi.Renv.JsonReader
import GnuRQi.Renv.JsonValues
import GnuRQi.Renv.JsonGrammar
import GnuRQi.Renv.JsonEmpty
import GnuRQi.Renv.JsonMeaning
import GnuRQi.Renv.JsonDocument
import GnuRQi.Renv.JsonAstray
import GnuRQi.R.Named
import GnuRQi.Renv.Repos
import GnuRQi.R.Script
import GnuRQi.Renv.Download
import GnuRQi.Renv.Paths
import GnuRQi.Renv.Startup
import GnuRQi.Statistics.LeastSquares
import GnuRQi.R.LinearModel
import GnuRQi.R.Groups
import GnuRQi.Statistics.Ranks
import GnuRQi.R.Ranks
import GnuRQi.Burnout.ChillGroups
import GnuRQi.Burnout.EasyModels
import GnuRQi.Lives.Listway
