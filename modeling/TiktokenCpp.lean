import TiktokenCpp.Lib.Outcome
import TiktokenCpp.Lib.Backtrack
import TiktokenCpp.Lib.Containers
import TiktokenCpp.Lib.GreedyMerge
import TiktokenCpp.Lib.Utf8
import TiktokenCpp.Pcre2.Pattern
import TiktokenCpp.Pcre2.Engine
import TiktokenCpp.Model.Definitions
import TiktokenCpp.Model.BytePair
import TiktokenCpp.Results.BytePair
import TiktokenCpp.Model.Charset
import TiktokenCpp.Model.Base64
import TiktokenCpp.Model.Utils
import TiktokenCpp.Model.Registry
import TiktokenCpp.Model.CoreBpe
import TiktokenCpp.Model.TokenEncoding
import TiktokenCpp.Lib.Scan
import TiktokenCpp.Lib.Session
import TiktokenCpp.Results.WordSplit
import TiktokenCpp.Results.Construction
import TiktokenCpp.Results.MergeSafety
import TiktokenCpp.Results.Models
import TiktokenCpp.Results.SpecialScan
import TiktokenCpp.Results.Exceptions
import TiktokenCpp.Results.Arguments
import TiktokenCpp.Results.BadInput
import TiktokenCpp.Results.BinarySearch
import TiktokenCpp.Results.DisallowedCheck
import TiktokenCpp.Results.Policy
import TiktokenCpp.Results.RoundTrip
import TiktokenCpp.Lib.CharCode
import TiktokenCpp.Results.Charset
import TiktokenCpp.Results.Sessions
import TiktokenCpp.Model.Download
import TiktokenCpp.Results.Download
import TiktokenCpp.Results.Symbols
import TiktokenCpp.Results.Vocabulary
import TiktokenCpp.Results.Loader
import TiktokenCpp.Lib.MergeLocality
import TiktokenCpp.Results.TokenLocality
import TiktokenCpp.Results.Separators
import TiktokenCpp.Lib.MatchLocality
import TiktokenCpp.Results.Chunks
import TiktokenCpp.Results.OrderFree
import TiktokenCpp.Lib.WriteOnce
import TiktokenCpp.Model.Startup
import TiktokenCpp.Results.Startup
import TiktokenCpp.Results.Interrupted
import TiktokenCpp.Results.GetEncoding
import TiktokenCpp.Results.Segmentation
import TiktokenCpp.Results.Base64
import TiktokenCpp.Lib.MergeRanking
import TiktokenCpp.Results.Training
import TiktokenCpp.Lib.MatchGrowth
import TiktokenCpp.Results.Appending
import TiktokenCpp.Lib.BitMixing
import TiktokenCpp.Results.Hashing
import TiktokenCpp.Model.Base64Stream
import TiktokenCpp.Results.Base64Stream
