import Toft.Base.CommonSubstring
import Toft.Base.Format.Printf
import Toft.Base.NumberText
import Toft.Compress.Gzip
import Toft.Compress.StreamCompression
import Toft.Container.BlockingQueue
import Toft.Container.BloomFilter
import Toft.Container.LruMap
import Toft.Crypto.Hash.Md5Digest
import Toft.Crypto.Hash.Sha1Input
import Toft.Encoding.CharsetConverter
import Toft.Encoding.PercentDecode
import Toft.Encoding.ShellEscape
import Toft.Hash.Crc32
import Toft.Net.Http.ContentLength
import Toft.Net.Http.Request
import Toft.Net.Uri.Merge
import Toft.Net.Uri.QueryParams
import Toft.Net.Uri.RelativeFragment
import Toft.Net.Uri.WriteToBuffer
import Toft.Storage.PathRelative
import Toft.Storage.RecordIO.Reverse
import Toft.Storage.RecordIO.Truncated
import Toft.Storage.SSTable.CompositedRoundTrip
import Toft.Storage.SSTable.Hfile.DecodeSafety
import Toft.Storage.SSTable.MergedRejected
import Toft.Storage.SSTable.ShardingRoundTrip
import Toft.Storage.SSTable.WritersAgree
import Toft.Storage.SeqFile.Resync
import Toft.Storage.SeqFile.Tail
import Toft.System.Threading.Stranded
import Toft.System.Time.CountDays
import Toft.System.Time.DateCalls
import Toft.System.Time.DaysTo
import Toft.System.Timer.RemoveTimer
