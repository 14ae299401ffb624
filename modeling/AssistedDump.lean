import AssistedDump.Pipeline.AutoDump
import AssistedDump.Pipeline.EndToEnd
import AssistedDump.Console.WatchLoop
import AssistedDump.Console.Picture
import AssistedDump.Heavylifting.Backlog
import AssistedDump.Heavylifting.ImageTransport
import AssistedDump.Web.StartUp
import AssistedDump.Web.RomView
import AssistedDump.Qrencode.Correction
import AssistedDump.Pipeline.Photographs
