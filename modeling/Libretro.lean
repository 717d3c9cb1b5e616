import Libretro.Encodings.Adler
import Libretro.Encodings.Crc
import Libretro.Encodings.DeflateCodes
import Libretro.Encodings.HuffmanBlocks
import Libretro.Encodings.HuffmanDecode
import Libretro.Encodings.InflateIndex
import Libretro.Encodings.InflateReset
import Libretro.Encodings.InflateSafety
import Libretro.Encodings.Utf
import Libretro.Encodings.VcdiffFeed
import Libretro.Encodings.VcdiffMeaning
import Libretro.Encodings.Xxh64
import Libretro.Files.ConfigHistory
import Libretro.Files.ConfigSave
import Libretro.Formats.CdfsLookup
import Libretro.Formats.Iec61937
import Libretro.Formats.RjsonWriter
import Libretro.Formats.RjsonDepth
import Libretro.Formats.RjsonRoundTrip
import Libretro.Formats.RxmlProgress
import Libretro.Formats.RyamlIntegers
import Libretro.Formats.RyamlRoundTrip
import Libretro.Formats.ZipArchive
import Libretro.Hash.Sha256
import Libretro.Lists.LinkedList
import Libretro.Lists.NestedList
import Libretro.Lists.StringSplit
import Libretro.Maps.RhMapRefinement
import Libretro.Memory.Mempool
import Libretro.Net.HttpResponses
import Libretro.Net.HttpRoute
import Libretro.Paths.PathResolve
import Libretro.Playlists.LabelSanitization
import Libretro.Playlists.M3uDump
import Libretro.Queues.FifoQueue
import Libretro.Queues.MessageQueue
import Libretro.Queues.MpscStack
import Libretro.Queues.SpscRefinement
import Libretro.Queues.TaskBlocking
import Libretro.Queues.TaskDeferOrder
import Libretro.Queues.TaskPass
import Libretro.Queues.TripleBuffer
import Libretro.Streams.RzipArchive
import Libretro.Strings.ExtList
import Libretro.Strings.Fnmatch
import Libretro.Strings.Replace
import Libretro.Strings.WordWrap
